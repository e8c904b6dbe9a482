import Mathlib.Data.List.Sort
import Wikitext.Proofs.AliasWidening

/-! Tables are joined as ordered unions. The list that is grown is asked for each entry, so what is
added does not depend on whether an entry came from the first list or was added before; read from
the last entry backwards, one table after another is the same as both at once. -/

namespace Wikitext

namespace NameTable

variable {xs ys zs : List Text}

/-- `zs` is `xs` and behind it the entries that only `ys` has, each once, in the order in which they
first stand there. -/
def Unites (xs ys zs : List Text) : Prop :=
  ∃ more, zs = xs ++ more ∧ (∀ y, y ∈ more ↔ y ∈ ys ∧ y ∉ xs) ∧
    more.Pairwise fun y z => ys.idxOf y < ys.idxOf z

theorem Unites.unique {zs' : List Text} (h : Unites xs ys zs) (h' : Unites xs ys zs') :
    zs = zs' := by
  obtain ⟨more, rfl, hmem, hsort⟩ := h
  obtain ⟨more', rfl, hmem', hsort'⟩ := h'
  have hirrefl : Std.Irrefl fun y z : Text => ys.idxOf y < ys.idxOf z :=
    ⟨fun _ => Nat.lt_irrefl _⟩
  have hanti : Std.Antisymm fun y z : Text => ys.idxOf y < ys.idxOf z :=
    ⟨fun _ _ hyz hzy => absurd hzy (Nat.lt_asymm hyz)⟩
  rw [hsort.eq_of_mem_iff hsort' fun y => (hmem y).trans (hmem' y).symm]

theorem Unites.nodup (h : Unites xs ys zs) (hxs : xs.Nodup) : zs.Nodup := by
  obtain ⟨more, rfl, hmem, hsort⟩ := h
  have hmore : more.Nodup := hsort.imp fun hlt he => by
    subst he
    omega
  refine List.nodup_append.mpr ⟨hxs, hmore, fun x hx y hy he => ?_⟩
  subst he
  exact ((hmem x).mp hy).2 hx

theorem unites_of_subset (h : ys ⊆ xs) : Unites xs ys xs :=
  ⟨[], (List.append_nil xs).symm, fun y => by simpa using @h y, .nil⟩

/-- Where the entries of a list first stand does not change when another comes behind it. -/
theorem pairwise_idxOf_concat {more : List Text} (hmem : ∀ z ∈ more, z ∈ ys) (y : Text)
    (h : more.Pairwise fun u v => ys.idxOf u < ys.idxOf v) :
    more.Pairwise fun u v => (ys ++ [y]).idxOf u < (ys ++ [y]).idxOf v := by
  refine h.imp_of_mem fun hu hv hlt => ?_
  rwa [List.idxOf_append_of_mem (hmem _ hu), List.idxOf_append_of_mem (hmem _ hv)]

theorem Unites.concat_old (h : Unites xs ys zs) {y : Text} (hy : y ∈ xs ∨ y ∈ ys) :
    Unites xs (ys ++ [y]) zs := by
  obtain ⟨more, rfl, hmem, hsort⟩ := h
  refine ⟨more, rfl, fun z => ?_, pairwise_idxOf_concat (fun z hz => ((hmem z).mp hz).1) y hsort⟩
  rw [hmem, List.mem_append, List.mem_singleton]
  constructor
  · exact And.imp_left .inl
  · rintro ⟨hz | rfl, hno⟩
    · exact ⟨hz, hno⟩
    · exact ⟨hy.resolve_left hno, hno⟩

theorem Unites.concat_new (h : Unites xs ys zs) {y : Text} (hx : y ∉ xs) (hy : y ∉ ys) :
    Unites xs (ys ++ [y]) (zs ++ [y]) := by
  obtain ⟨more, rfl, hmem, hsort⟩ := h
  have hsort' := pairwise_idxOf_concat (fun z hz => ((hmem z).mp hz).1) y hsort
  refine ⟨more ++ [y], List.append_assoc _ _ _, fun z => ?_, ?_⟩
  · rw [List.mem_append, List.mem_append, hmem, List.mem_singleton]
    constructor
    · rintro (⟨hz, hno⟩ | rfl)
      · exact ⟨.inl hz, hno⟩
      · exact ⟨.inr rfl, hx⟩
    · rintro ⟨hz | rfl, hno⟩
      · exact .inl ⟨hz, hno⟩
      · exact .inr rfl
  · refine List.pairwise_append.mpr ⟨hsort', List.pairwise_singleton _ _, fun u hu v hv => ?_⟩
    obtain rfl : v = y := List.mem_singleton.mp hv
    have hu' : u ∈ ys := ((hmem u).mp hu).1
    have hlt : ys.idxOf u < ys.length := List.idxOf_lt_length_of_mem hu'
    rw [List.idxOf_append_of_mem hu', List.idxOf_append_of_notMem hy]
    omega

theorem join_concat (xs ys : List Text) (y : Text) : join xs (ys ++ [y]) =
    if y ∈ xs ∨ y ∈ ys then join xs ys else join xs ys ++ [y] := by
  have hold : (y ∈ xs ∨ y ∈ ys) ↔ (join xs ys).contains y = true := by
    rw [List.contains_iff_mem, mem_join]
  rw [if_congr hold rfl rfl, join, List.foldl_append]
  rfl

theorem unites_join (xs ys : List Text) : Unites xs ys (join xs ys) := by
  induction ys using List.reverseRecOn with
  | nil => exact unites_of_subset (List.nil_subset xs)
  | append_singleton ys y ih =>
    rw [join_concat]
    by_cases hy : y ∈ xs ∨ y ∈ ys
    · rw [if_pos hy]
      exact ih.concat_old hy
    · rw [if_neg hy]
      rw [not_or] at hy
      exact ih.concat_new hy.1 hy.2

theorem unites_iff : Unites xs ys zs ↔ zs = join xs ys :=
  ⟨fun h => h.unique (unites_join xs ys), fun h => h ▸ unites_join xs ys⟩

theorem join_of_subset (h : ys ⊆ xs) : join xs ys = xs :=
  (unites_iff.mp (unites_of_subset h)).symm

theorem join_join (xs ys zs : List Text) : join (join xs ys) zs = join xs (join ys zs) := by
  induction zs using List.reverseRecOn with
  | nil => rfl
  | append_singleton zs z ih =>
    rw [join_concat, join_concat ys, ih]
    by_cases hz : z ∈ ys ∨ z ∈ zs
    · have hthere : z ∈ join xs ys ∨ z ∈ zs := hz.imp_left fun hy => mem_join.mpr (.inr hy)
      rw [if_pos hz, if_pos hthere]
    · have hsame : (z ∈ join xs ys ∨ z ∈ zs) ↔ (z ∈ xs ∨ z ∈ join ys zs) := by
        rw [mem_join, mem_join, or_assoc]
      rw [if_neg hz, join_concat, if_congr hsame rfl rfl]

theorem join_join_self (xs ys : List Text) : join (join xs ys) ys = join xs ys :=
  join_of_subset fun _ hy => mem_join.mpr (.inr hy)

theorem join_nil_left (ys : List Text) : join [] ys = ys.eraseDups := by
  induction ys using List.reverseRecOn with
  | nil => rfl
  | append_singleton ys y ih =>
    rw [join_concat, ih, List.eraseDups_append]
    by_cases hy : y ∈ ys <;> simp [List.removeAll, List.eraseDups_cons, hy]

theorem join_nil_left_eq_self : join [] ys = ys ↔ ys.Nodup := by
  constructor
  · intro h
    exact h ▸ (unites_join [] ys).nodup .nil
  · intro h
    induction ys using List.reverseRecOn with
    | nil => rfl
    | append_singleton ys y ih =>
      obtain ⟨hys, -, hnew⟩ := List.nodup_append.mp h
      have hy : ¬ (y ∈ [] ∨ y ∈ ys) := by
        rintro (hnil | hy)
        · exact List.not_mem_nil hnil
        · exact hnew y hy y (List.mem_singleton_self y) rfl
      rw [join_concat, if_neg hy, ih hys]

/-- The three lists of a table. -/
def lists : List (NameTable → List Text) :=
  [namespaces, altParams, magicWords]

section

variable {names : NameTable → List Text}

theorem eq_iff_lists {a b : NameTable} : a = b ↔ ∀ names ∈ lists, names a = names b := by
  constructor
  · rintro rfl _ _
    rfl
  · intro h
    cases a
    cases b
    simpa [lists] using h

theorem list_extend (h : names ∈ lists) (a b : NameTable) :
    names (a.extend b) = join (names a) (names b) := by
  simp only [lists, List.mem_cons, List.not_mem_nil, or_false] at h
  rcases h with rfl | rfl | rfl <;> rfl

theorem list_empty (h : names ∈ lists) : names empty = [] := by
  simp only [lists, List.mem_cons, List.not_mem_nil, or_false] at h
  rcases h with rfl | rfl | rfl <;> rfl

end

/-- A table is empty when it marks no link; what else it lists does not count. -/
theorem mediaLinks_of_isEmpty {a : NameTable} (h : a.isEmpty = true) (d : Document) :
    a.mediaLinks d = .ok [] := by
  have hnone : MediaLink.ofOuter? d a.namespaces = fun _ => none := by
    rw [List.isEmpty_iff.mp h]
    rfl
  rw [mediaLinks, Document.mediaLinks, hnone, List.filterMap_none]
  rfl

theorem isEmpty_extend (a b : NameTable) :
    (a.extend b).isEmpty = (a.isEmpty && b.isEmpty) := by
  rw [Bool.eq_iff_iff, Bool.and_eq_true]
  simp only [isEmpty, extend, List.isEmpty_iff, List.eq_nil_iff_forall_not_mem, mem_join, not_or]
  exact forall_and

/-- Extending a table is an ordered union in each of its lists: what the table has keeps its place
and repeats nothing new. One table after another is the same as both at once, a table twice is the
same as once, and the empty table adds nothing; what is added to the empty table keeps each entry
where it first stands. -/
theorem unites_extend (a b c : NameTable) :
    (∀ names ∈ lists, (∀ zs, Unites (names a) (names b) zs ↔ zs = names (a.extend b)) ∧
      ((names a).Nodup → (names (a.extend b)).Nodup) ∧
      names (empty.extend a) = (names a).eraseDups) ∧
    (a.extend b).extend c = a.extend (b.extend c) ∧
    (a.extend b).extend b = a.extend b ∧
    a.extend empty = a ∧
    (empty.extend a = a ↔ ∀ names ∈ lists, (names a).Nodup) := by
  refine ⟨fun names hn => ⟨fun zs => ?_, fun ha => ?_, ?_⟩, ?_, ?_, ?_, ?_⟩
  · rw [list_extend hn]
    exact unites_iff
  · rw [list_extend hn]
    exact (unites_join _ _).nodup ha
  · rw [list_extend hn, list_empty hn]
    exact join_nil_left _
  · refine eq_iff_lists.mpr fun names hn => ?_
    rw [list_extend hn, list_extend hn, list_extend hn, list_extend hn]
    exact join_join _ _ _
  · refine eq_iff_lists.mpr fun names hn => ?_
    rw [list_extend hn, list_extend hn]
    exact join_join_self _ _
  · refine eq_iff_lists.mpr fun names hn => ?_
    rw [list_extend hn, list_empty hn]
    rfl
  · rw [eq_iff_lists]
    refine forall₂_congr fun names hn => ?_
    rw [list_extend hn, list_empty hn]
    exact join_nil_left_eq_self

/-- A table that repeats a namespace, and one that the English table has. -/
def germanTable : NameTable :=
  ⟨["Datei", "File", "Bild", "Datei"].map String.toList,
    ["alternativtext", "alt"].map String.toList, ["mini", "thumb"].map String.toList⟩

theorem unites_extend_germanTable :
    english.namespaces.Nodup ∧
      (english.extend germanTable).namespaces =
        ["File", "Image", "Datei", "Bild"].map String.toList ∧
      (english.extend germanTable).namespaces.Nodup ∧ empty.extend germanTable ≠ germanTable := by
  have hmem : namespaces ∈ lists := List.mem_cons_self
  have henglish : english.namespaces.Nodup := by decide
  have hgerman : ¬ germanTable.namespaces.Nodup := by decide
  obtain ⟨hjoined, -⟩ := unites_extend english germanTable empty
  obtain ⟨-, -, -, -, hleft⟩ := unites_extend germanTable empty empty
  exact ⟨henglish, by decide, (hjoined _ hmem).2.1 henglish,
    fun h => hgerman (hleft.mp h _ hmem)⟩

end NameTable

end Wikitext
