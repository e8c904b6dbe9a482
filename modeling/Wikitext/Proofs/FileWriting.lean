import Mathlib.Data.List.Basic
import Wikitext.FileTree

/-! Writing to a path changes the content of that file and nothing else: a path leads where it led
before, since every directory on its way is still one. -/

namespace Wikitext.FileTree

variable {t : FileTree} {names other : List String} {content : ByteArray}

theorem isDirectory_iff : t.isDirectory names = true ↔ names = [] ∨
    ∃ e ∈ t.entries, if e.1 = names then e.2.isDirectory = true else names <+: e.1 := by
  simp only [isDirectory, Bool.or_eq_true, decide_eq_true_eq, List.any_eq_true]
  refine or_congr_right (exists_congr fun e => and_congr_right fun _ => ?_)
  split
  · exact Iff.rfl
  · exact List.isPrefixOf_iff_prefix

/-- Every place on the way to some names is a directory. -/
def Reached (t : FileTree) (names : List String) : Prop :=
  ∀ other, other <+: names → other ≠ names → t.isDirectory other = true

theorem reached_nil (t : FileTree) : t.Reached [] :=
  fun _ h hne => absurd (List.prefix_nil.mp h) hne

theorem Reached.follow? {part : String} (h : t.Reached names)
    (hf : t.follow? names part = some other) : t.Reached other := by
  simp only [FileTree.follow?] at hf
  split at hf
  · cases hf
  · rename_i hdirectory
    simp only [Bool.not_eq_true', Bool.not_eq_false] at hdirectory
    split at hf
    · cases hf
      exact h
    · split at hf
      · split at hf
        · cases hf
        · cases hf
          intro x hx hne
          apply h x (hx.trans (List.dropLast_prefix names))
          rintro rfl
          exact hne (hx.eq_of_length_le (List.dropLast_prefix x).length_le)
      · cases hf
        intro x hx hne
        rcases List.prefix_concat_iff.mp hx with hx | hx
        · exact absurd hx hne
        · by_cases hxn : x = names
          · rw [hxn]
            exact hdirectory
          · exact h x hx hxn

theorem reached_of_resolve? {path : String} (h : t.resolve? path = some names) :
    t.Reached names := by
  have hfold {parts : List String} {start : List String} (hs : t.Reached start)
      (hp : parts.foldlM t.follow? start = some names) : t.Reached names := by
    induction parts generalizing start with
    | nil =>
      cases hp
      exact hs
    | cons part parts ih =>
      rw [List.foldlM_cons] at hp
      obtain ⟨next, hnext, hp⟩ := Option.bind_eq_some_iff.mp hp
      exact ih (hs.follow? hnext) hp
  simp only [resolve?] at h
  split at h
  · cases h
  · exact hfold (reached_nil t) h

theorem isDirectory_eq_false (hn : t.isDirectory names = false) {e : List String × Entry}
    (he : e ∈ t.entries) (hname : e.1 = names) : e.2.isDirectory = false := by
  rw [Bool.eq_false_iff, ne_eq, isDirectory_iff, not_or, not_exists] at hn
  have hno := hn.2 e
  rw [if_pos hname, not_and, Bool.not_eq_true] at hno
  exact hno he

theorem isDirectory_put (hr : t.Reached names) (hn : t.isDirectory names = false)
    (other : List String) : (t.put names content).isDirectory other = t.isDirectory other := by
  rw [Bool.eq_iff_iff, put]
  split
  · rw [isDirectory_iff, isDirectory_iff]
    refine or_congr_right ?_
    simp only [List.mem_map, exists_exists_and_eq_and]
    refine exists_congr fun e => and_congr_right fun he => ?_
    by_cases hname : e.1 = names
    · have hfile := isDirectory_eq_false hn he hname
      rw [if_pos hname, hname, hfile]
      rfl
    · rw [if_neg hname]
  · rw [isDirectory_iff]
    simp only [List.mem_append, List.mem_singleton, or_and_right, exists_or, exists_eq_left]
    rw [← or_assoc, ← isDirectory_iff]
    refine or_iff_left_of_imp fun hnew => ?_
    split at hnew
    · cases hnew
    · rename_i hne
      exact hr other hnew fun he => hne he.symm

theorem lookup_put (names other : List String) : (t.put names content).entries.lookup other =
    if other = names then some (.file content) else t.entries.lookup other := by
  have hmap (es : List (List String × Entry)) :
      (es.map fun e => if e.1 = names then (names, Entry.file content) else e).lookup other =
        if other = names then (es.lookup names).map fun _ => .file content
        else es.lookup other := by
    induction es with
    | nil => simp
    | cons e es ih =>
      obtain ⟨name, entry⟩ := e
      rw [List.map_cons]
      by_cases hname : name = names
      · rw [if_pos hname, List.lookup_cons, ih, List.lookup_cons, hname]
        by_cases hother : other = names
        · simp [hother]
        · simp [hother, List.lookup_cons, beq_false_of_ne hother]
      · rw [if_neg hname, List.lookup_cons, ih, List.lookup_cons]
        by_cases hother : other = names
        · simp [hother, beq_false_of_ne (Ne.symm hname)]
        · simp [hother, List.lookup_cons]
  rw [put]
  split
  · rename_i hsome
    obtain ⟨e, he⟩ := Option.isSome_iff_exists.mp hsome
    rw [hmap, he]
    rfl
  · rename_i hnone
    rw [Option.not_isSome_iff_eq_none] at hnone
    rw [List.lookup_append]
    by_cases hother : other = names
    · rw [hother, hnone, if_pos rfl]
      simp
    · rw [if_neg hother, List.lookup_cons, beq_false_of_ne hother]
      simp

theorem resolve?_congr {t' : FileTree} (h : ∀ names, t'.isDirectory names = t.isDirectory names)
    (path : String) : t'.resolve? path = t.resolve? path := by
  have hfollow : t'.follow? = t.follow? := by
    funext names part
    simp only [follow?, h]
  rw [resolve?, resolve?, hfollow]

/-- Every path leads where it led before; at the one given lies a file with the content given, and
at the others what lay there. -/
structure Written (path : String) (content : ByteArray) (before after : FileTree) : Prop where
  resolves : (before.resolve? path).isSome = true
  resolve?_eq : ∀ p, after.resolve? p = before.resolve? p
  entry?_eq : ∀ p, after.entry? p =
    if before.resolve? p = before.resolve? path then some (.file content) else before.entry? p

theorem written_write {path : String} (hp : t.resolve? path = some names)
    (hn : t.isDirectory names = false) : Written path content t (t.write path content) := by
  have hwrite : t.write path content = t.put names content := by rw [write, hp]
  have hdirectory (other : List String) :
      (t.put names content).isDirectory other = t.isDirectory other :=
    isDirectory_put (reached_of_resolve? hp) hn other
  have hresolve := resolve?_congr hdirectory
  rw [hwrite]
  refine ⟨by rw [hp]; rfl, hresolve, fun p => ?_⟩
  unfold entry?
  rw [hresolve, hp]
  cases hq : t.resolve? p with
  | none => simp
  | some other =>
    simp only [hdirectory, lookup_put, Option.some.injEq]
    by_cases hother : other = names
    · simp [hother, hn]
    · simp [hother]

theorem written_write_of_file {path : String} {old : ByteArray}
    (h : t.entry? path = some (.file old)) : Written path content t (t.write path content) := by
  unfold entry? at h
  cases hp : t.resolve? path with
  | none => simp [hp] at h
  | some names =>
    apply written_write hp
    simp only [hp] at h
    split at h
    · cases h
    · rwa [← Bool.not_eq_true]

/-- Where nothing lies a file appears, unless the path leads nowhere. -/
theorem written_write_of_absent {path : String} (h : t.entry? path = none) :
    t.write path content = t ∨ Written path content t (t.write path content) := by
  unfold entry? at h
  cases hp : t.resolve? path with
  | none => exact .inl (by rw [write, hp])
  | some names =>
    refine .inr (written_write hp ?_)
    simp only [hp] at h
    split at h
    · cases h
    · rwa [← Bool.not_eq_true]

end Wikitext.FileTree
