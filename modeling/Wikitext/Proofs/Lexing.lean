import Mathlib.Data.List.Infix
import Mathlib.Data.List.TakeWhile
import Wikitext.Marker.Lexeme
import Wikitext.Proofs.Segmentation

/-! A stretch of cells cut into lexemes, judged with the cells after it in view, so that no lexeme
is cut short. What follows a stretch may be replaced as long as that adds nothing a lexeme could
run on into: this is what lets a document be edited in one place and keep its lexemes elsewhere. -/

namespace Wikitext

namespace Cell

theorem beginsWith_iff {cells : List Cell} {t : Text} :
    beginsWith cells t = true ↔ t <+: chars cells := by
  induction t generalizing cells with
  | nil => simp [beginsWith]
  | cons c t ih =>
    cases cells with
    | nil => simp [beginsWith]
    | cons a r =>
      simp only [beginsWith, Bool.and_eq_true, decide_eq_true_eq, chars_cons,
        List.cons_prefix_cons, ih]
      exact and_congr_left' eq_comm

theorem atBoundary_append {x : List Cell} (hx : x ≠ []) (y : List Cell) :
    atBoundary (x ++ y) = atBoundary x := by
  cases x with
  | nil => exact absurd rfl hx
  | cons a x => rfl

theorem atBoundary_append_of {x y : List Cell} (hx : atBoundary x = true)
    (hy : atBoundary y = true) : atBoundary (x ++ y) = true := by
  cases x with
  | nil => exact hy
  | cons a x => exact hx

theorem atBoundary_of_append {x y : List Cell} (h : atBoundary (x ++ y) = true) :
    atBoundary x = true := by
  cases x with
  | nil => rfl
  | cons a x => exact h

theorem atBoundary_ofText_append {t : Text} (ht : t ≠ []) (y : List Cell) :
    atBoundary (ofText t ++ y) = true := by
  rw [atBoundary_append, atBoundary_ofText]
  intro hnil
  have hc := congrArg chars hnil
  rw [chars_ofText] at hc
  exact ht hc

theorem exists_append_of_chars_eq {x : List Cell} {s t : Text} (h : chars x = s ++ t) :
    ∃ u v, x = u ++ v ∧ chars u = s ∧ chars v = t := by
  obtain ⟨u, v, hx, hu, hv⟩ := List.map_eq_append_iff.mp h
  exact ⟨u, v, hx, hu, hv⟩

end Cell

namespace LexemeKind

theorem literal_ne_nil {k : LexemeKind} (hk : k ∈ markers) : k.literal ≠ [] := by
  revert k
  decide

theorem mem_markers {k : LexemeKind} (hk : k ≠ .text) : k ∈ markers := by
  cases k with
  | text => exact absurd rfl hk
  | _ => decide

theorem isMarkerChar_of_literal {k : LexemeKind} {c : Char} {t : Text} (hk : k ∈ markers)
    (h : k.literal = c :: t) : isMarkerChar c = true := by
  have hall : ∀ k ∈ markers, ∀ c ∈ k.literal.head?, isMarkerChar c = true := by decide
  exact hall k hk c (by simp [h])

theorem eq_of_begins {k k' : LexemeKind} {t : Text} (hk : k ∈ markers) (hk' : k' ∈ markers)
    (h : k.literal <+: t) (h' : k'.literal <+: t) : k = k' := by
  have hall : ∀ k ∈ markers, ∀ k' ∈ markers, k.literal.head? = k'.literal.head? → k = k' := by
    decide
  obtain ⟨u, rfl⟩ := h
  obtain ⟨v, hv⟩ := h'
  apply hall k hk k' hk'
  rw [← List.head?_append_of_ne_nil _ (literal_ne_nil hk), ← hv,
    List.head?_append_of_ne_nil _ (literal_ne_nil hk')]

theorem not_infix_tail {k k' : LexemeKind} (hk : k ∈ markers) (hk' : k' ∈ markers) :
    ¬ k.literal <:+: k'.literal.tail := by
  have hall : ∀ k ∈ markers, ∀ k' ∈ markers, ¬ k.literal <:+: k'.literal.tail := by decide
  exact hall k hk k' hk'

end LexemeKind

open LexemeKind

namespace Lexeme

/-- `Lexed x y k`: the cells `x`, with the cells `y` after them, are one lexeme of the kind `k`. -/
inductive Lexed : List Cell → List Cell → LexemeKind → Prop
  | marker {x y : List Cell} {k : LexemeKind} (hk : k ∈ markers) (hx : Cell.chars x = k.literal) :
      Lexed x y (kindBefore k x y)
  | run {x y : List Cell} (hne : x ≠ []) (hx : ∀ a ∈ x, isMarkerChar a.char = false)
      (hy : ∀ a ∈ y.head?, isMarkerChar a.char = true) : Lexed x y .text
  | stray {a : Cell} {y : List Cell} (ha : isMarkerChar a.char = true)
      (hno : ∀ k ∈ markers, ¬ k.literal <+: Cell.chars (a :: y)) : Lexed [a] y .text

theorem next?_marker {x y : List Cell} {k : LexemeKind} (hk : k ∈ markers)
    (hx : Cell.chars x = k.literal) : next? (x ++ y) = some (⟨kindBefore k x y, x⟩, y) := by
  obtain ⟨a, r, rfl⟩ := List.exists_cons_of_ne_nil (l := x) (by
    rintro rfl
    exact literal_ne_nil hk hx.symm)
  have hm : isMarkerChar a.char = true := isMarkerChar_of_literal hk hx.symm
  have hbegins : Cell.beginsWith (a :: (r ++ y)) k.literal = true := by
    rw [Cell.beginsWith_iff, ← hx]
    exact ⟨Cell.chars y, by simp⟩
  have hfind : markers.find? (Cell.beginsWith (a :: (r ++ y)) ·.literal) = some k := by
    cases hf : markers.find? (Cell.beginsWith (a :: (r ++ y)) ·.literal) with
    | none => exact absurd hbegins (List.find?_eq_none.mp hf k hk)
    | some k' =>
      have hk' : k'.literal <+: Cell.chars (a :: (r ++ y)) :=
        Cell.beginsWith_iff.mp (by simpa using List.find?_some hf)
      rw [eq_of_begins (List.mem_of_find?_eq_some hf) hk hk' (Cell.beginsWith_iff.mp hbegins)]
  have hlen : k.literal.length - 1 = r.length := by
    rw [← hx]
    simp
  simp only [List.cons_append, next?, hm, if_true, hfind, hlen]
  simp

theorem next?_run {x y : List Cell} (hne : x ≠ []) (hx : ∀ a ∈ x, isMarkerChar a.char = false)
    (hy : ∀ a ∈ y.head?, isMarkerChar a.char = true) :
    next? (x ++ y) = some (⟨.text, x⟩, y) := by
  obtain ⟨a, r, rfl⟩ := List.exists_cons_of_ne_nil hne
  have ha := hx a List.mem_cons_self
  have hr : ∀ b ∈ r, (!isMarkerChar b.char) = true := fun b hb => by
    simp [hx b (List.mem_cons_of_mem _ hb)]
  have hstop : y.takeWhile (!isMarkerChar ·.char) = [] ∧
      y.dropWhile (!isMarkerChar ·.char) = y := by
    cases y with
    | nil => simp
    | cons b y => simp [hy b rfl]
  simp only [List.cons_append, next?, ha]
  simp [List.takeWhile_append_of_pos hr, List.dropWhile_append_of_pos hr, hstop]

theorem next?_stray {a : Cell} {y : List Cell} (ha : isMarkerChar a.char = true)
    (hno : ∀ k ∈ markers, ¬ k.literal <+: Cell.chars (a :: y)) :
    next? (a :: y) = some (⟨.text, [a]⟩, y) := by
  have hfind : markers.find? (Cell.beginsWith (a :: y) ·.literal) = none := by
    rw [List.find?_eq_none]
    intro k hk hb
    exact hno k hk (Cell.beginsWith_iff.mp hb)
  simp only [next?, ha, if_true, hfind]

theorem Lexed.next?_eq {x y : List Cell} {k : LexemeKind} (h : Lexed x y k) :
    next? (x ++ y) = some (⟨k, x⟩, y) := by
  cases h with
  | marker hk hx => exact next?_marker hk hx
  | run hne hx hy => exact next?_run hne hx hy
  | stray ha hno => exact next?_stray ha hno

theorem lexed_of_next? {cells y : List Cell} {l : Lexeme} (h : next? cells = some (l, y)) :
    cells = l.cells ++ y ∧ Lexed l.cells y l.kind := by
  refine ⟨(next?_tiles h).symm, ?_⟩
  cases cells with
  | nil => simp [next?] at h
  | cons a r =>
    by_cases ha : isMarkerChar a.char = true
    · cases hf : markers.find? (Cell.beginsWith (a :: r) ·.literal) with
      | none =>
        simp only [next?, ha, if_true, hf, Option.some.injEq, Prod.mk.injEq] at h
        obtain ⟨rfl, rfl⟩ := h
        refine .stray ha fun k hk hp => ?_
        exact List.find?_eq_none.mp hf k hk (Cell.beginsWith_iff.mpr hp)
      | some k =>
        have hk := List.mem_of_find?_eq_some hf
        obtain ⟨t, ht⟩ : k.literal <+: Cell.chars (a :: r) :=
          Cell.beginsWith_iff.mp (by simpa using List.find?_some hf)
        obtain ⟨u, v, hc, hu, -⟩ := Cell.exists_append_of_chars_eq ht.symm
        have hn := next?_marker (y := v) hk hu
        rw [← hc, h] at hn
        simp only [Option.some.injEq, Prod.mk.injEq] at hn
        obtain ⟨rfl, rfl⟩ := hn
        exact .marker hk hu
    · simp only [next?, ha] at h
      simp only [Bool.false_eq_true, if_false, Option.some.injEq, Prod.mk.injEq] at h
      obtain ⟨rfl, rfl⟩ := h
      apply Lexed.run (List.cons_ne_nil _ _)
      · intro b hb
        rcases List.mem_cons.mp hb with rfl | hb
        · simpa using ha
        · simpa using List.mem_takeWhile_imp hb
      · intro b hb
        have hstop := List.head?_dropWhile_not (fun c : Cell => !isMarkerChar c.char) r
        rw [Option.mem_def.mp hb] at hstop
        simpa using hstop

theorem Lexed.eq_kindBefore {x y : List Cell} {k k' : LexemeKind} (h : Lexed x y k')
    (hk : k ∈ markers) (hx : Cell.chars x = k.literal) : k' = kindBefore k x y := by
  have he := h.next?_eq
  rw [next?_marker hk hx] at he
  simpa using he.symm

theorem Lexed.ne_nil {x y : List Cell} {k : LexemeKind} (h : Lexed x y k) : x ≠ [] := by
  cases h with
  | marker hk hx =>
    rintro rfl
    exact literal_ne_nil hk hx.symm
  | run hne => exact hne
  | stray => exact List.cons_ne_nil _ _

theorem Lexed.chars_eq {x y : List Cell} {k : LexemeKind} (h : Lexed x y k) (hk : k ≠ .text) :
    Cell.chars x = k.literal ∧ Cell.atBoundary x = true ∧ Cell.atBoundary y = true := by
  cases h with
  | run => exact absurd rfl hk
  | stray => exact absurd rfl hk
  | @marker _ _ k _ hx =>
    by_cases hb : (Cell.atBoundary x && Cell.atBoundary y) = true
    · rw [kindBefore, if_pos hb] at hk ⊢
      simpa only [hx, true_and, Bool.and_eq_true] using hb
    · rw [kindBefore, if_neg hb] at hk
      exact absurd rfl hk

/-- `Passes x z ls`: the cells `x`, with the cells `z` after them, are the lexemes `ls`. -/
inductive Passes : List Cell → List Cell → List Lexeme → Prop
  | nil {z : List Cell} : Passes [] z []
  | cons {x z : List Cell} {l : Lexeme} {ls : List Lexeme} (hl : Lexed l.cells (x ++ z) l.kind)
      (h : Passes x z ls) : Passes (l.cells ++ x) z (l :: ls)

namespace Passes

variable {x y z z' : List Cell} {ls ls' : List Lexeme}

theorem flatMap_cells (h : Passes x z ls) : ls.flatMap (·.cells) = x := by
  induction h with
  | nil => rfl
  | cons _ _ ih => rw [List.flatMap_cons, ih]

theorem append (h : Passes x (y ++ z) ls) (h' : Passes y z ls') :
    Passes (x ++ y) z (ls ++ ls') := by
  generalize hw : y ++ z = w at h
  induction h with
  | nil => exact h'
  | cons hl _ ih =>
    subst hw
    rw [List.append_assoc]
    exact .cons (by simpa only [List.append_assoc] using hl) (ih rfl)

theorem singleton {l : Lexeme} (h : Lexed l.cells z l.kind) : Passes l.cells z [l] := by
  simpa only [List.append_nil] using cons (x := []) h .nil

theorem lexed_of_singleton {l : Lexeme} (h : Passes x z [l]) :
    x = l.cells ∧ Lexed l.cells z l.kind := by
  have hx : x = l.cells := by simpa using h.flatMap_cells.symm
  generalize hls : [l] = ls at h
  cases h with
  | nil => cases hls
  | cons hl h =>
    obtain ⟨rfl, rfl⟩ := List.cons.inj hls
    cases h
    exact ⟨hx, hl⟩

theorem split (h : Passes x z (ls ++ ls')) :
    ∃ u v, x = u ++ v ∧ Passes u (v ++ z) ls ∧ Passes v z ls' := by
  induction ls generalizing x with
  | nil => exact ⟨[], x, rfl, .nil, h⟩
  | cons l ls ih =>
    cases h with
    | cons hl h =>
      obtain ⟨u, v, rfl, hu, hv⟩ := ih h
      exact ⟨l.cells ++ u, v, (List.append_assoc _ _ _).symm,
        .cons (by simpa only [List.append_assoc] using hl) hu, hv⟩

end Passes

theorem passes_ofCells (cells : List Cell) : Passes cells [] (ofCells cells) := by
  generalize hn : cells.length = n
  induction n using Nat.strongRecOn generalizing cells with
  | ind n ih =>
    rw [Lexeme.ofCells_eq]
    cases hc : next? cells with
    | none =>
      cases cells with
      | nil => exact .nil
      | cons a r =>
        simp only [next?] at hc
        split at hc
        · split at hc <;> cases hc
        · cases hc
    | some p =>
      obtain ⟨l, y⟩ := p
      obtain ⟨he, hl⟩ := lexed_of_next? hc
      have hlt : y.length < n := hn ▸ next?_shrinks cells l y hc
      rw [he]
      exact .cons (by rwa [List.append_nil]) (ih _ hlt y rfl)

/-- `z'` may stand where `z` stood: no lexeme that ends before `z` could run on into `z'`. -/
structure Replaces (z z' : List Cell) : Prop where
  boundary : Cell.atBoundary z' = Cell.atBoundary z
  run : (∀ a ∈ z.head?, isMarkerChar a.char = true) → ∀ a ∈ z'.head?, isMarkerChar a.char = true
  marker : ∀ k ∈ markers, ∀ p q, p ≠ [] → q ≠ [] → k.literal = p ++ q →
    q <+: Cell.chars z' → q <+: Cell.chars z

theorem Replaces.append_left {z z' : List Cell} (h : Replaces z z') (y : List Cell) :
    Cell.atBoundary (y ++ z') = Cell.atBoundary (y ++ z) := by
  cases y with
  | nil => exact h.boundary
  | cons a y => rfl

theorem replaces_nil {z : List Cell} (h : Cell.atBoundary z = true) : Replaces z [] where
  boundary := h.symm
  run := by simp
  marker k _ p q _ hq _ hp := absurd (List.prefix_nil.mp hp) hq

/-- A character that stands in no marker but at its beginning. -/
def Opener (c : Char) : Prop :=
  isMarkerChar c = true ∧ ∀ k ∈ markers, c ∉ k.literal.tail

theorem replaces_opener {z w : List Cell} {a : Cell} (ha : Opener a.char)
    (hb : Cell.atBoundary (a :: w) = Cell.atBoundary z) : Replaces z (a :: w) where
  boundary := hb
  run _ := by simpa using ha.1
  marker k hk p q hp hq he hpre := by
    obtain ⟨c, r, rfl⟩ := List.exists_cons_of_ne_nil hp
    obtain ⟨d, s, rfl⟩ := List.exists_cons_of_ne_nil hq
    obtain ⟨rfl, -⟩ := List.cons_prefix_cons.mp hpre
    exact absurd (by simp [he]) (ha.2 k hk)

theorem replaces_append_marker {x y w : List Cell} {k : LexemeKind} (hk : k ∈ markers)
    (hx : Cell.chars x = k.literal) : Replaces (x ++ y) (x ++ w) := by
  obtain ⟨a, r, rfl⟩ := List.exists_cons_of_ne_nil (l := x) (by
    rintro rfl
    exact literal_ne_nil hk hx.symm)
  refine ⟨rfl, fun h => by simpa using h, fun k' hk' p q hp hq he hpre => ?_⟩
  rw [Cell.chars_append, hx] at hpre ⊢
  rcases List.prefix_or_prefix_of_prefix hpre (List.prefix_append k.literal _) with h | h
  · exact h.trans (List.prefix_append _ _)
  · obtain ⟨c, s, rfl⟩ := List.exists_cons_of_ne_nil hp
    refine absurd (h.isInfix.trans ?_) (not_infix_tail hk hk')
    rw [he]
    exact ⟨s, [], by simp⟩

theorem Lexed.replace {x u z z' : List Cell} {k : LexemeKind} (h : Lexed x (u ++ z) k)
    (hz : Replaces z z') : Lexed x (u ++ z') k := by
  cases h with
  | marker hk hx =>
    rw [kindBefore, ← hz.append_left u]
    exact .marker hk hx
  | run hne hx hy =>
    apply Lexed.run hne hx
    cases u with
    | nil => exact hz.run hy
    | cons a u => exact hy
  | @stray a _ ha hno =>
    refine .stray ha fun k hk hp => hno k hk ?_
    rw [← List.cons_append, Cell.chars_append] at hp ⊢
    -- The marker lies before `z'`, or runs on into it by some `q`.
    rcases List.prefix_or_prefix_of_prefix hp (List.prefix_append _ _) with h | ⟨q, hq⟩
    · exact h.trans (List.prefix_append _ _)
    · rw [← hq] at hp ⊢
      rw [List.prefix_append_right_inj] at hp ⊢
      by_cases hne : q = []
      · simp [hne]
      · exact hz.marker k hk _ q (by simp) hne hq.symm hp

namespace Passes

variable {x y z z' : List Cell} {ls : List Lexeme}

theorem replace (h : Passes x z ls) (hz : Replaces z z') : Passes x z' ls := by
  induction h with
  | nil => exact .nil
  | cons hl _ ih => exact .cons (hl.replace hz) (ih hz)

/-- Behind a marker anything may follow, if only the boundary stays. -/
theorem replace_after_marker {l : Lexeme} {k : LexemeKind} (h : Passes x z (ls ++ [l]))
    (hk : k ∈ markers) (hl : Cell.chars l.cells = k.literal)
    (hb : Cell.atBoundary z' = Cell.atBoundary z) : Passes x z' (ls ++ [l]) := by
  obtain ⟨u, v, rfl, hu, hv⟩ := h.split
  obtain ⟨rfl, hlex⟩ := hv.lexed_of_singleton
  have hkind : kindBefore k l.cells z' = l.kind := by
    rw [hlex.eq_kindBefore hk hl, kindBefore, kindBefore, hb]
  exact (hu.replace (replaces_append_marker hk hl)).append
    (singleton (hkind ▸ Lexed.marker hk hl))

end Passes

section

variable {x z : List Cell}

/-- No lexeme that begins in `x` could run on into `z`. -/
structure Closed (x z : List Cell) : Prop where
  run : ∀ a ∈ z.head?, isMarkerChar a.char = true
  marker : ∀ k ∈ markers, ∀ p q, p ≠ [] → q ≠ [] → k.literal = p ++ q →
    p <:+ Cell.chars x → ¬ q <+: Cell.chars z

theorem Closed.of_append {u v : List Cell} (h : Closed (u ++ v) z) : Closed v z where
  run := h.run
  marker k hk p q hp hq he hs := h.marker k hk p q hp hq he (by
    rw [Cell.chars_append]
    exact hs.trans (List.suffix_append _ _))

theorem Closed.exists_lexed (h : Closed x z) (hx : x ≠ []) :
    ∃ u v k, x = u ++ v ∧ Lexed u (v ++ z) k ∧
      (k = .text ∨ k ∈ markers ∧ k.literal <+: Cell.chars x) := by
  obtain ⟨a, r, rfl⟩ := List.exists_cons_of_ne_nil hx
  by_cases ha : isMarkerChar a.char = true
  · by_cases hm : ∃ k ∈ markers, k.literal <+: Cell.chars (a :: r)
    · obtain ⟨k, hk, t, ht⟩ := hm
      obtain ⟨u, v, he, hu, -⟩ := Cell.exists_append_of_chars_eq ht.symm
      refine ⟨u, v, _, he, .marker hk hu, ?_⟩
      rw [kindBefore]
      split
      · exact .inr ⟨hk, t, ht⟩
      · exact .inl rfl
    · refine ⟨[a], r, .text, rfl, .stray ha fun k hk hp => ?_, .inl rfl⟩
      rw [← List.cons_append, Cell.chars_append] at hp
      rcases List.prefix_or_prefix_of_prefix hp (List.prefix_append _ _) with h' | ⟨q, hq⟩
      · exact hm ⟨k, hk, h'⟩
      · by_cases hne : q = []
        · exact hm ⟨k, hk, by simp [← hq, hne]⟩
        · rw [← hq, List.prefix_append_right_inj] at hp
          exact h.marker k hk _ q (by simp) hne hq.symm List.suffix_rfl hp
  · refine ⟨a :: r.takeWhile (!isMarkerChar ·.char), r.dropWhile (!isMarkerChar ·.char), .text,
      by simp, .run (List.cons_ne_nil _ _) ?_ ?_, .inl rfl⟩
    · intro b hb
      rcases List.mem_cons.mp hb with rfl | hb
      · simpa using ha
      · simpa using List.mem_takeWhile_imp hb
    · intro b hb
      cases hd : r.dropWhile (!isMarkerChar ·.char) with
      | nil =>
        rw [hd, List.nil_append] at hb
        exact h.run b hb
      | cons c s =>
        have hstop := List.head?_dropWhile_not (fun c : Cell => !isMarkerChar c.char) r
        rw [hd] at hb hstop
        obtain rfl : c = b := by simpa using hb
        simpa using hstop

/-- Lexemes of a stretch into whose end nothing runs: the markers among them stand in it. -/
theorem Closed.exists_passes (h : Closed x z) : ∃ ls, Passes x z ls ∧
    ∀ l ∈ ls, l.kind = .text ∨ l.kind ∈ markers ∧ l.kind.literal <:+: Cell.chars x := by
  generalize hn : x.length = n
  induction n using Nat.strongRecOn generalizing x with
  | ind n ih =>
    by_cases hx : x = []
    · subst hx
      exact ⟨[], .nil, by simp⟩
    · obtain ⟨u, v, k, rfl, hl, hk⟩ := h.exists_lexed hx
      have hlt : v.length < n := by
        have := List.length_pos_iff.mpr hl.ne_nil
        rw [← hn, List.length_append]
        omega
      obtain ⟨ls, hp, hls⟩ := ih _ hlt h.of_append rfl
      refine ⟨⟨k, u⟩ :: ls, .cons (l := ⟨k, u⟩) hl hp, fun l hl => ?_⟩
      rcases List.mem_cons.mp hl with rfl | hl
      · exact hk.imp_right (And.imp_right List.IsPrefix.isInfix)
      · refine (hls l hl).imp_right (And.imp_right fun hi => hi.trans ?_)
        rw [Cell.chars_append]
        exact (List.suffix_append _ _).isInfix

end

theorem passes_marker {x z : List Cell} {k : LexemeKind} (hk : k ∈ markers)
    (hx : Cell.chars x = k.literal) (hb : Cell.atBoundary (x ++ z) = true)
    (hz : Cell.atBoundary z = true) : Passes x z [⟨k, x⟩] := by
  have hne : x ≠ [] := by
    rintro rfl
    exact literal_ne_nil hk hx.symm
  have hkind : kindBefore k x z = k := by
    rw [Cell.atBoundary_append hne] at hb
    rw [kindBefore, hb, hz]
    rfl
  exact Passes.singleton (l := ⟨k, x⟩) (by simpa only [hkind] using Lexed.marker (y := z) hk hx)

end Lexeme

/-- The characters of which templates, links and their separators are made. -/
def brackets : List Char := ['[', ']', '{', '}', '|']

/-- Text that holds no bracket. -/
def Text.Plain (t : Text) : Prop :=
  ∀ c ∈ t, c ∉ brackets

instance (t : Text) : Decidable t.Plain :=
  inferInstanceAs (Decidable (∀ c ∈ t, c ∉ brackets))

namespace Lexeme

/-- After plain text comes the end, a bracket, or what may begin a comment. -/
def Stops (z : List Cell) : Prop :=
  ∀ a ∈ z.head?, a.char ∈ '<' :: brackets

theorem stops_cons {a : Cell} (z : List Cell) (h : a.char ∈ '<' :: brackets) : Stops (a :: z) := by
  intro b hb
  obtain rfl : a = b := by simpa using hb
  exact h

theorem Stops.marker_head {z : List Cell} (h : Stops z) :
    ∀ a ∈ z.head?, isMarkerChar a.char = true := by
  intro a ha
  have hall : ∀ c ∈ '<' :: brackets, isMarkerChar c = true := by decide
  exact hall _ (h a ha)

theorem stops_of_chars {x z : List Cell} {c : Char} {t : Text} (hx : Cell.chars x = c :: t)
    (hc : c ∈ '<' :: brackets) : Stops (x ++ z) := by
  cases x with
  | nil => cases hx
  | cons a x =>
    obtain ⟨rfl, -⟩ := List.cons.inj hx
    exact stops_cons _ hc

theorem closed_of_plain {x z : List Cell} (hx : (Cell.chars x).Plain) (hz : Stops z) :
    Closed x z where
  run := hz.marker_head
  marker k hk p q hp hq he hs hpre := by
    have hall : ∀ k ∈ markers, (∀ c ∈ k.literal.head?, c ∉ brackets) →
        ∀ d ∈ '<' :: brackets, d ∉ k.literal.tail := by decide
    obtain ⟨c, r, rfl⟩ := List.exists_cons_of_ne_nil hp
    obtain ⟨d, s, rfl⟩ := List.exists_cons_of_ne_nil hq
    cases z with
    | nil => exact absurd (List.prefix_nil.mp hpre) (List.cons_ne_nil _ _)
    | cons a z =>
      obtain ⟨rfl, -⟩ := List.cons_prefix_cons.mp hpre
      refine hall k hk (fun c' hc' => ?_) a.char (hz a rfl) (by simp [he])
      obtain rfl : c = c' := by simpa [he] using hc'
      exact hx c (hs.subset List.mem_cons_self)

theorem exists_passes_plain {x z : List Cell} (hx : (Cell.chars x).Plain)
    (hc : ¬ commentOpen.literal <:+: Cell.chars x) (hz : Stops z) : ∃ ls, Passes x z ls ∧
      ∀ l ∈ ls, l.kind = .text ∨ l.kind = .newline ∨ l.kind = .commentClose := by
  obtain ⟨ls, hp, hls⟩ := (closed_of_plain hx hz).exists_passes
  refine ⟨ls, hp, fun l hl => (hls l hl).imp_right ?_⟩
  rintro ⟨hk, hi⟩
  have hall : ∀ k ∈ markers, (∀ c ∈ k.literal, c ∉ brackets) →
      k = commentOpen ∨ k = newline ∨ k = commentClose := by decide
  rcases hall _ hk (fun c h => hx c (hi.subset h)) with h | h
  · exact absurd (h ▸ hi) hc
  · exact h

theorem closed_of_commentBody {x z : List Cell} (hx : '<' ∉ Cell.chars x)
    (hz : commentClose.literal <+: Cell.chars z) : Closed x z where
  run a ha := by
    cases z with
    | nil => cases ha
    | cons b z =>
      obtain rfl : b = a := by simpa using ha
      obtain ⟨hc, -⟩ := List.cons_prefix_cons.mp hz
      have hb : isMarkerChar '-' = true := rfl
      rwa [show '-' = b.char from hc] at hb
  marker k hk p q hp hq he hs hpre := by
    have hall : ∀ k ∈ markers, k.literal.head? ≠ some '<' → ∀ q ∈ k.literal.tail.tails, q ≠ [] →
        ¬ q <+: commentClose.literal ∧ ¬ commentClose.literal <+: q := by decide
    obtain ⟨c, r, rfl⟩ := List.exists_cons_of_ne_nil hp
    have hhead : k.literal.head? ≠ some '<' := by
      rw [he]
      rintro h
      obtain rfl : c = '<' := by simpa using h
      exact hx (hs.subset List.mem_cons_self)
    have hq' := hall k hk hhead q (by
      rw [List.mem_tails, he]
      exact ⟨r, rfl⟩) hq
    exact (List.prefix_or_prefix_of_prefix hpre hz).elim hq'.1 hq'.2

theorem exists_passes_commentBody {x z : List Cell} (hx : '<' ∉ Cell.chars x)
    (hc : ¬ commentClose.literal <:+: Cell.chars x) (hz : commentClose.literal <+: Cell.chars z) :
    ∃ ls, Passes x z ls ∧ ∀ l ∈ ls, l.kind ≠ commentClose := by
  obtain ⟨ls, hp, hls⟩ := (closed_of_commentBody hx hz).exists_passes
  refine ⟨ls, hp, fun l hl hk => ?_⟩
  rcases hls l hl with h | ⟨-, h⟩
  · rw [h] at hk
    cases hk
  · exact hc (hk ▸ h)

end Lexeme

end Wikitext
