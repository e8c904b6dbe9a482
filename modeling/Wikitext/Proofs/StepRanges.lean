import Wikitext.Proofs.LeadingBlock
import Wikitext.Proofs.Offsets
import Wikitext.Proofs.OuterLinks

/-! Steps with the bytes they cover. A step found at some bytes is the next step at a place of the
document where the scan has read all the text in front of it. -/

namespace Wikitext

namespace Step

theorem place_append (start : Nat) (ss ss' : List Step) : place start (ss ++ ss') =
    place start ss ++ place (start + (textOf ss).byteLength) ss' := by
  induction ss generalizing start with
  | nil => rfl
  | cons s ss ih =>
    rw [List.cons_append, place, place, ih, textOf_cons, Text.byteLength_append, Nat.add_assoc]
    rfl

theorem mem_place (start : Nat) (us rest : List Step) (s : Step) :
    (⟨start + (textOf us).byteLength, start + (textOf us).byteLength + s.text.byteLength⟩, s) ∈
      place start (us ++ s :: rest) := by
  induction us generalizing start with
  | nil => exact List.mem_cons_self
  | cons a us ih =>
    rw [textOf_cons, Text.byteLength_append, ← Nat.add_assoc]
    exact List.mem_cons_of_mem _ (ih _)

theorem exists_of_mem_place {start : Nat} {r : ByteRange} {s : Step} {ss : List Step}
    (h : (r, s) ∈ place start ss) : ∃ us vs, ss = us ++ s :: vs ∧
      r.start = start + (textOf us).byteLength ∧ r.stop = r.start + s.text.byteLength := by
  induction ss generalizing start with
  | nil => cases h
  | cons a ss ih =>
    rcases List.mem_cons.mp h with he | h
    · cases he
      exact ⟨[], ss, rfl, rfl, rfl⟩
    · obtain ⟨us, vs, rfl, hstart, hstop⟩ := ih h
      refine ⟨a :: us, vs, rfl, ?_, hstop⟩
      rw [hstart, textOf_cons, Text.byteLength_append, Nat.add_assoc]

theorem mem_of_mem_place {start : Nat} {r : ByteRange} {s : Step} {ss : List Step}
    (h : (r, s) ∈ place start ss) : s ∈ ss := by
  obtain ⟨us, vs, rfl, -⟩ := exists_of_mem_place h
  simp

theorem bounds_of_mem_place {start : Nat} {p : ByteRange × Step} {ss : List Step}
    (h : p ∈ place start ss) : start ≤ p.1.start ∧ p.1.stop ≤ start + (textOf ss).byteLength := by
  obtain ⟨us, vs, rfl, hstart, hstop⟩ := exists_of_mem_place h
  simp only [textOf_append, textOf_cons, Text.byteLength_append]
  omega

section

variable {p : Step → Bool} {start : Nat} {us : List Step}

theorem find?_place_eq_none (hus : ∀ s ∈ us, p s = false) :
    (place start us).find? (p ·.2) = none := by
  rw [List.find?_eq_none]
  rintro ⟨r, s⟩ hmem
  simp [hus s (mem_of_mem_place hmem)]

theorem find?_place {c : Step} (hus : ∀ s ∈ us, p s = false) (hc : p c = true) (vs : List Step) :
    (place start (us ++ c :: vs)).find? (p ·.2) =
      some (⟨start + (textOf us).byteLength,
        start + (textOf us).byteLength + c.text.byteLength⟩, c) := by
  rw [place_append, List.find?_append, find?_place_eq_none hus, Option.none_or, place]
  exact List.find?_cons_of_pos hc

end

theorem depths_of_next? {d e : Depths} {cells y : List Cell} {s : Step}
    (h : next? (d, cells) = some (s, (e, y))) :
    s.depths = e ∧ (s.kind = .comment ∧ e = d ∨ ∃ k, d.after k = (s.kind, e)) := by
  simp only [next?] at h
  split at h
  · cases h
  · rename_i l rest hn
    split at h
    · cases h
      exact ⟨rfl, .inl ⟨rfl, rfl⟩⟩
    · cases h
      exact ⟨rfl, .inr ⟨l.kind, rfl⟩⟩

theorem forall_of_scanFrom {P : Depths → Prop} {p q : Step → Prop}
    (hstep : ∀ {d e cells y s}, next? (d, cells) = some (s, (e, y)) → P d → p s → P e ∧ q s)
    {d : Depths} {cells : List Cell} {us rest : List Step} (h : scanFrom d cells = us ++ rest)
    (hd : P d) (hus : ∀ s ∈ us, p s) : ∀ s ∈ us, q s := by
  induction us generalizing d cells with
  | nil => simp
  | cons a us ih =>
    obtain ⟨e, y, hn, hrest⟩ := exists_of_scanFrom_cons h
    obtain ⟨he, ha⟩ := hstep hn hd (hus a List.mem_cons_self)
    intro s hs
    rcases List.mem_cons.mp hs with rfl | hs
    · exact ha
    · exact ih hrest he (fun s hs => hus s (List.mem_cons_of_mem _ hs)) s hs

/-- The depths behind some steps. -/
def depthsBehind (d : Depths) (ss : List Step) : Depths :=
  ss.foldl (fun _ s => s.depths) d

theorem exists_behind {d : Depths} {cells : List Cell} {us vs : List Step}
    (h : scanFrom d cells = us ++ vs) :
    ∃ z, cells = us.flatMap (·.cells) ++ z ∧ vs = scanFrom (depthsBehind d us) z := by
  induction us generalizing d cells with
  | nil => exact ⟨cells, rfl, h.symm⟩
  | cons s us ih =>
    obtain ⟨e, y, hn, hrest⟩ := exists_of_scanFrom_cons h
    obtain ⟨z, rfl, rfl⟩ := ih hrest
    refine ⟨z, ?_, ?_⟩
    · rw [next?_tiles hn, List.flatMap_cons, List.append_assoc]
    · rw [← (depths_of_next? hn).1]
      rfl

theorem exists_next?_of_scanFrom {d : Depths} {cells : List Cell} {us vs : List Step} {s : Step}
    (h : scanFrom d cells = us ++ s :: vs) : ∃ x y e t, cells = x ++ y ∧ Cell.chars x = textOf us ∧
      next? (e, y) = some (s, t) ∧ scanFrom t.1 t.2 = vs := by
  obtain ⟨y, hy, hrest⟩ := exists_behind h
  obtain ⟨e, z, hn, hvs⟩ := exists_of_scanFrom_cons hrest.symm
  exact ⟨_, y, _, (e, z), hy, chars_flatMap_cells us, hn, hvs⟩

end Step

namespace Document

open Step

theorem exists_cellsFrom {t : Text} {b : Nat} (h : (ofText t).isBoundary b = true) :
    ∃ w, Cell.ofText t = w ++ (ofText t).cellsFrom b ∧ (Cell.chars w).byteLength = b ∧
      Cell.atBoundary ((ofText t).cellsFrom b) = true := by
  obtain ⟨w, y, hw, hy, rfl⟩ := isBoundary_iff.mp h
  rw [cells_ofText] at hw
  rw [cellsFrom_append hw]
  exact ⟨w, hw, rfl, hy⟩

theorem stepsFrom_cut {t : Text} {x y : List Cell} (h : Cell.ofText t = x ++ y)
    (hy : Cell.atBoundary y = true) : (ofText t).stepsFrom (Cell.chars x).byteLength =
      place (Cell.chars x).byteLength (scan y) := by
  have hb : (ofText t).isBoundary (Cell.chars x).byteLength = true := by rwa [isBoundary_cut h]
  simp only [stepsFrom]
  rw [byteAt_clusterAt hb, cellsFrom_append h]

theorem stepsFrom_zero (t : Text) : (ofText t).stepsFrom 0 = place 0 (ofText t).steps :=
  stepsFrom_cut (x := []) rfl (Cell.atBoundary_ofText t)

theorem exists_of_mem_stepsFrom {t : Text} {byte : Nat} {r : ByteRange} {s : Step}
    (h : (r, s) ∈ (ofText t).stepsFrom byte) : ∃ x y e f, Cell.ofText t = x ++ y ∧
      (Cell.chars x).byteLength = r.start ∧ next? (e, y) = some (s, f) ∧
      r.stop = r.start + s.text.byteLength := by
  obtain ⟨w, hw, hstart, -⟩ := exists_cellsFrom ((ofText t).isBoundary_byteAt
    ((ofText t).clusterAt byte))
  obtain ⟨us, vs, hscan, hr, hstop⟩ := exists_of_mem_place h
  obtain ⟨x, y, e, f, hxy, hx, hn, -⟩ := exists_next?_of_scanFrom hscan
  refine ⟨w ++ x, y, e, f, ?_, ?_, hn, hstop⟩
  · rw [List.append_assoc, ← hxy]
    exact hw
  · rw [Cell.chars_append, Text.byteLength_append, hstart, hx, hr]

end Document

end Wikitext
