import Wikitext.Document

/-! Cells of texts written one after the other. Where a cluster boundary parts two texts, each has
the cells that it has alone; so a cut at a boundary can be made and mended without looking at what
lies on the other side. -/

namespace Wikitext

namespace Text

-- What is said of the characters of a text is decided along the text. An instance that goes through
-- all characters there are would be found first where one is in scope.
instance (t : List Char) (p : Char → Prop) [DecidablePred p] : Decidable (∀ c ∈ t, p c) :=
  List.decidableBAll p t

instance (o : Option Char) (p : Char → Prop) [DecidablePred p] : Decidable (∀ c ∈ o, p c) :=
  Option.decidableForallMem o

theorem eq_nil_of_byteLength_eq_zero {t : Text} (h : t.byteLength = 0) : t = [] := by
  cases t with
  | nil => rfl
  | cons c r =>
    have := c.utf8Size_pos
    rw [byteLength_cons] at h
    omega

theorem append_inj_of_byteLength {s s' t t' : Text} (h : s ++ t = s' ++ t')
    (hl : s.byteLength = s'.byteLength) : s = s' ∧ t = t' := by
  rcases List.append_eq_append_iff.mp h with ⟨r, hs, ht⟩ | ⟨r, hs, ht⟩
  · have hr : r = [] := eq_nil_of_byteLength_eq_zero (by
      rw [hs, byteLength_append] at hl
      omega)
    simp [hs, ht, hr]
  · have hr : r = [] := eq_nil_of_byteLength_eq_zero (by
      rw [hs, byteLength_append] at hl
      omega)
    simp [hs, ht, hr]

end Text

namespace Tail

/-- The tail of the last cluster after some more text. -/
def after (tail : Tail) (t : Text) : Tail :=
  t.foldl (fun s c => (s.next? (.of c)).getD (.start (.of c))) tail

@[simp]
theorem after_nil (tail : Tail) : tail.after [] = tail := rfl

theorem after_cons (tail : Tail) (c : Char) (t : Text) :
    tail.after (c :: t) = ((tail.next? (.of c)).getD (.start (.of c))).after t := rfl

@[simp]
theorem after_append (tail : Tail) (s t : Text) : tail.after (s ++ t) = (tail.after s).after t := by
  simp [after]

theorem after_other {c : Char} (hc : BreakClass.of c = .other) (tail : Tail) :
    tail.after [c] = .other := by
  cases tail <;> simp [after, hc, next?, start]

theorem after_lineFeed (tail : Tail) : tail.after ['\n'] = .control := by
  have hc : BreakClass.of '\n' = .lf := rfl
  cases tail <;> simp [after, hc, next?, start]

theorem next?_cr (tail : Tail) : tail.next? .cr = none := by
  cases tail <;> rfl

theorem next?_other {tail : Tail} : tail.next? .other = none ↔ tail ≠ .prepend := by
  cases tail <;> simp [next?, start]

theorem after_concat_eq_prepend {tail : Tail} {t : Text} {c : Char} :
    tail.after (t ++ [c]) = .prepend ↔ BreakClass.of c = .prepend := by
  rw [after_append, after_cons, after_nil]
  generalize BreakClass.of c = k
  rcases tail.after t with _ | _ | _ | _ | _ | _ | _ | linked | joined | _
  case conjunct => cases linked <;> cases k <;> simp [next?, start, extended]
  case pictograph => cases joined <;> cases k <;> simp [next?, start, extended]
  all_goals cases k <;> simp [next?, start, extended]

end Tail

namespace Cell

@[simp]
theorem chars_nil : chars [] = [] := rfl

@[simp]
theorem chars_cons (a : Cell) (x : List Cell) : chars (a :: x) = a.char :: chars x := rfl

@[simp]
theorem chars_append (x y : List Cell) : chars (x ++ y) = chars x ++ chars y := by
  simp [chars]

@[simp]
theorem length_chars (x : List Cell) : (chars x).length = x.length := by
  simp [chars]

theorem ofTextAfter_append (tail : Tail) (s t : Text) :
    ofTextAfter tail (s ++ t) = ofTextAfter tail s ++ ofTextAfter (tail.after s) t := by
  induction s generalizing tail with
  | nil => simp
  | cons c s ih =>
    rw [List.cons_append, ofTextAfter_cons, ofTextAfter_cons, Tail.after_cons]
    split
    · rename_i hn
      simp [hn, ih]
    · rename_i hn
      simp [hn, ih]

theorem atBoundary_ofTextAfter_cons (tail : Tail) (c : Char) (r : Text) :
    atBoundary (ofTextAfter tail (c :: r)) = true ↔ tail.next? (.of c) = none := by
  rw [ofTextAfter_cons]
  split
  · rename_i hn
    simp [hn, atBoundary]
  · rename_i hn
    simp [hn, atBoundary]

theorem ofText_nil : ofText [] = [] :=
  ofTextAfter_nil _

theorem ofText_singleton (c : Char) : ofText [c] = [⟨c, true⟩] := by
  have hn : Tail.next? .control (.of c) = none := rfl
  rw [ofText, ofTextAfter_cons, hn, ofTextAfter_nil]

theorem atBoundary_ofText (t : Text) : atBoundary (ofText t) = true := by
  cases t with
  | nil => rw [ofText_nil]; rfl
  | cons c r => exact (atBoundary_ofTextAfter_cons .control c r).mpr rfl

theorem ofTextAfter_eq_ofText {tail : Tail} {t : Text}
    (h : atBoundary (ofTextAfter tail t) = true) : ofTextAfter tail t = ofText t := by
  cases t with
  | nil => simp [ofText]
  | cons c r =>
    have hn := (atBoundary_ofTextAfter_cons tail c r).mp h
    rw [ofText, ofTextAfter_cons, ofTextAfter_cons, hn]
    rfl

end Cell

namespace Text

/-- A cluster boundary lies between two texts written one after the other. -/
def Parted (s t : Text) : Prop :=
  Cell.atBoundary (Cell.ofTextAfter (Tail.after .control s) t) = true

theorem parted_nil_right (s : Text) : Parted s [] := by
  simp [Parted, Cell.atBoundary]

theorem parted_cons {s : Text} {c : Char} {t : Text} :
    Parted s (c :: t) ↔ (Tail.after .control s).next? (.of c) = none :=
  Cell.atBoundary_ofTextAfter_cons _ c t

theorem parted_nil_left (t : Text) : Parted [] t := by
  cases t with
  | nil => exact parted_nil_right []
  | cons c r => exact parted_cons.mpr rfl

theorem Parted.congr_head {s : Text} {c c' : Char} {t t' : Text} (h : Parted s (c :: t))
    (hc : BreakClass.of c' = BreakClass.of c) : Parted s (c' :: t') := by
  rw [parted_cons] at h ⊢
  rwa [hc]

theorem Parted.congr_last {s s' : Text} {c c' : Char} {t : Text} (h : Parted (s ++ [c]) t)
    (hc : BreakClass.of c = .other) (hc' : BreakClass.of c' = .other) : Parted (s' ++ [c']) t := by
  rw [Parted, Tail.after_append, Tail.after_other hc] at h
  rw [Parted, Tail.after_append, Tail.after_other hc']
  exact h

theorem parted_other_other {s : Text} {c c' : Char} {t : Text}
    (hc : BreakClass.of c = .other) (hc' : BreakClass.of c' = .other) :
    Parted (s ++ [c]) (c' :: t) := by
  rw [parted_cons, Tail.after_append, Tail.after_other hc, hc']
  rfl

theorem Parted.append_left {s t : Text} {c c' : Char} {r : Text} (h : Parted t [c])
    (hc : BreakClass.of c = .other) (hc' : BreakClass.of c' = .other) :
    Parted (s ++ c' :: t) (c :: r) := by
  rw [parted_cons, hc, Tail.next?_other] at h ⊢
  rcases List.eq_nil_or_concat t with rfl | ⟨t, b, rfl⟩
  · rw [Tail.after_append, Tail.after_other hc']
    nofun
  · rw [List.concat_eq_append, ← List.cons_append, ← List.append_assoc] at *
    rw [ne_eq, Tail.after_concat_eq_prepend] at h ⊢
    exact h

theorem parted_after_lineFeed (s t : Text) : Parted (s ++ ['\n']) t := by
  cases t with
  | nil => exact parted_nil_right _
  | cons c r =>
    rw [parted_cons, Tail.after_append, Tail.after_lineFeed]
    rfl

theorem parted_before_cr (s t : Text) : Parted s ('\r' :: t) :=
  parted_cons.mpr (Tail.next?_cr _)

theorem ofText_append {s t : Text} (h : Parted s t) :
    Cell.ofText (s ++ t) = Cell.ofText s ++ Cell.ofText t := by
  rw [Cell.ofText, Cell.ofTextAfter_append, Cell.ofTextAfter_eq_ofText h]
  rfl

theorem cells_of_ofText_eq_append {u : Text} {x y : List Cell} (h : Cell.ofText u = x ++ y) :
    x = Cell.ofText (Cell.chars x) ∧
      y = Cell.ofTextAfter (Tail.after .control (Cell.chars x)) (Cell.chars y) := by
  have hu : u = Cell.chars x ++ Cell.chars y := by
    rw [← Cell.chars_append, ← h, Cell.chars_ofText]
  rw [hu, Cell.ofText, Cell.ofTextAfter_append] at h
  obtain ⟨hx, hy⟩ := List.append_inj h (by
    rw [← Cell.length_chars, Cell.chars_ofTextAfter, Cell.length_chars])
  exact ⟨hx.symm, hy.symm⟩

theorem ofText_chars_of_atBoundary {u : Text} {x y : List Cell} (h : Cell.ofText u = x ++ y)
    (hy : Cell.atBoundary y = true) : Cell.ofText (Cell.chars y) = y := by
  have hcells := (cells_of_ofText_eq_append h).2
  rw [hcells] at hy
  rw [← Cell.ofTextAfter_eq_ofText hy, ← hcells]

theorem ofText_chars_of_eq_append {u : Text} {x y z : List Cell}
    (h : Cell.ofText u = x ++ (y ++ z)) (hb : Cell.atBoundary (y ++ z) = true) :
    Cell.ofText (Cell.chars y) = y :=
  (cells_of_ofText_eq_append (ofText_chars_of_atBoundary h hb)).1.symm

theorem parted_of_ofText_eq_append {u : Text} {x y : List Cell} (h : Cell.ofText u = x ++ y) :
    Parted (Cell.chars x) (Cell.chars y) ↔ Cell.atBoundary y = true := by
  rw [Parted, ← (cells_of_ofText_eq_append h).2]

end Text

namespace Cell

theorem mem_boundariesOnto {n pos : Nat} {found : List Nat} {cells : List Cell} :
    n ∈ boundariesOnto found pos cells ↔ n ∈ found ∨ ∃ x y, cells = x ++ y ∧
      atBoundary y = true ∧ n = pos + (chars x).byteLength := by
  induction cells generalizing found pos with
  | nil =>
    simp only [boundariesOnto, List.mem_reverse, List.mem_cons]
    constructor
    · rintro (rfl | h)
      · exact .inr ⟨[], [], rfl, rfl, rfl⟩
      · exact .inl h
    · rintro (h | ⟨x, y, he, -, rfl⟩)
      · exact .inr h
      · simp [(List.append_eq_nil_iff.mp he.symm).1]
  | cons a r ih =>
    rw [boundariesOnto, ih]
    constructor
    · rintro (h | ⟨x, y, rfl, hy, rfl⟩)
      · split at h
        · rename_i ha
          rcases List.mem_cons.mp h with rfl | h
          · exact .inr ⟨[], a :: r, rfl, ha, by simp⟩
          · exact .inl h
        · exact .inl h
      · exact .inr ⟨a :: x, y, rfl, hy, by simp [Nat.add_assoc]⟩
    · rintro (h | ⟨x, y, he, hy, rfl⟩)
      · split <;> simp [h]
      · cases x with
        | nil =>
          have ha : a.opens = true := by
            rw [List.nil_append] at he
            rw [← he] at hy
            exact hy
          simp [ha]
        | cons b x =>
          obtain ⟨rfl, rfl⟩ := List.cons.inj he
          exact .inr ⟨x, y, rfl, hy, by simp [Nat.add_assoc]⟩

theorem countP_boundariesOnto (p : Nat → Bool) (found : List Nat) (pos : Nat)
    (cells : List Cell) : (boundariesOnto found pos cells).countP p =
      found.countP p + (boundariesOnto [] pos cells).countP p := by
  induction cells generalizing found pos with
  | nil => simp [boundariesOnto, List.countP_cons]
  | cons a r ih =>
    rw [boundariesOnto, boundariesOnto, ih, ih (if a.opens then [pos] else [])]
    split
    · rw [List.countP_cons, List.countP_cons, List.countP_nil]
      omega
    · rw [List.countP_nil, Nat.zero_add]

theorem countP_boundariesOnto_of_le {n pos : Nat} {y : List Cell} (hy : atBoundary y = true)
    (hn : n ≤ pos) : (boundariesOnto [] pos y).countP (· ≤ n) = [pos].countP (· ≤ n) := by
  cases y with
  | nil => rfl
  | cons a r =>
    have ha : a.opens = true := hy
    have hpos := a.char.utf8Size_pos
    have hlater : (boundariesOnto [] (pos + a.char.utf8Size) r).countP (· ≤ n) = 0 := by
      rw [List.countP_eq_zero]
      intro k hk
      rcases mem_boundariesOnto.mp hk with hk | ⟨u, v, -, -, rfl⟩
      · exact absurd hk List.not_mem_nil
      · simp only [decide_eq_true_eq]
        omega
    rw [boundariesOnto, countP_boundariesOnto, ha, if_pos rfl, hlater, Nat.add_zero]

theorem countP_boundariesOnto_congr {n pos : Nat} {x y y' : List Cell} (hy : atBoundary y = true)
    (hy' : atBoundary y' = true) (hn : n ≤ pos + (chars x).byteLength) :
    (boundariesOnto [] pos (x ++ y)).countP (· ≤ n) =
      (boundariesOnto [] pos (x ++ y')).countP (· ≤ n) := by
  induction x generalizing pos with
  | nil =>
    change n ≤ pos at hn
    rw [List.nil_append, List.nil_append, countP_boundariesOnto_of_le hy hn,
      countP_boundariesOnto_of_le hy' hn]
  | cons a x ih =>
    rw [chars_cons, Text.byteLength_cons, ← Nat.add_assoc] at hn
    rw [List.cons_append, List.cons_append, boundariesOnto, boundariesOnto, countP_boundariesOnto,
      countP_boundariesOnto _ _ _ (x ++ y'), ih hn]

theorem dropBytes_append (x y : List Cell) : dropBytes (chars x).byteLength (x ++ y) = y := by
  induction x with
  | nil => cases y <;> simp [dropBytes]
  | cons a x ih =>
    have := a.char.utf8Size_pos
    simp only [List.cons_append, chars_cons, dropBytes, Text.byteLength_cons]
    rw [if_neg (by omega), Nat.add_sub_cancel_left, ih]

end Cell

namespace Document

@[simp]
theorem cells_ofText (t : Text) : (ofText t).cells = Cell.ofText t := rfl

theorem cellsFrom_append {t : Text} {x y : List Cell} (h : Cell.ofText t = x ++ y) :
    (ofText t).cellsFrom (Cell.chars x).byteLength = y := by
  rw [cellsFrom, cells_ofText, h, Cell.dropBytes_append]

theorem isBoundary_append (s t : Text) :
    (ofText (s ++ t)).isBoundary s.byteLength = true ↔ s.Parted t := by
  have hcut : Cell.ofText (s ++ t) = Cell.ofText s ++ Cell.ofTextAfter (Tail.after .control s) t :=
    Cell.ofTextAfter_append .control s t
  rw [isBoundary, List.contains_iff_mem]
  change s.byteLength ∈ Cell.boundariesOnto [] 0 (Cell.ofText (s ++ t)) ↔ _
  rw [Cell.mem_boundariesOnto]
  constructor
  · rintro (h | ⟨x, y, he, hy, hl⟩)
    · exact absurd h List.not_mem_nil
    · have ht : s ++ t = Cell.chars x ++ Cell.chars y := by
        rw [← Cell.chars_append, ← he, Cell.chars_ofText]
      obtain ⟨rfl, rfl⟩ := Text.append_inj_of_byteLength ht (by omega)
      exact (Text.parted_of_ofText_eq_append he).mpr hy
  · intro h
    exact .inr ⟨_, _, hcut, h, by simp⟩

/-- Places in front of a boundary are counted the same whatever stands behind it. -/
theorem clusterAt_congr {s t t' : Text} (h : s.Parted t) (h' : s.Parted t') {n : Nat}
    (hn : n ≤ s.byteLength) : (ofText (s ++ t)).clusterAt n = (ofText (s ++ t')).clusterAt n := by
  have hcut : ∀ w, Cell.ofText (s ++ w) =
      Cell.ofText s ++ Cell.ofTextAfter (Tail.after .control s) w :=
    Cell.ofTextAfter_append .control s
  have hle : n ≤ 0 + (Cell.chars (Cell.ofText s)).byteLength := by
    rwa [Cell.chars_ofText, Nat.zero_add]
  have hcount := Cell.countP_boundariesOnto_congr h h' hle
  rw [← hcut, ← hcut] at hcount
  exact congrArg (· - 1) hcount

theorem spanOf_congr {s t t' : Text} (h : s.Parted t) (h' : s.Parted t') {r : ByteRange}
    (hr : r.start ≤ r.stop) (hs : r.stop ≤ s.byteLength) :
    (ofText (s ++ t)).spanOf r = (ofText (s ++ t')).spanOf r := by
  rw [spanOf, spanOf, clusterAt_congr h h' (Nat.le_trans hr hs), clusterAt_congr h h' hs]

end Document

end Wikitext
