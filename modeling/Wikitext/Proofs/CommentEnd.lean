import Wikitext.Proofs.StepRanges

/-! Where a comment ends. The body of a comment is cut into lexemes like any other text, so a closer
is missed when an opener in the body reaches into its hyphens, as in `<!-->`. The comment goes to
the first closer that no opener reaches into, and to the end of the text when there is none. -/

namespace Wikitext

open LexemeKind

namespace Lexeme

/-- A marker of the kind `k` that begins in the cells `u` reaches into the cells `w` behind them. -/
def Reaches (k : LexemeKind) (u w : List Cell) : Prop :=
  ∃ a b s, u = a ++ b ∧ b ≠ [] ∧ s ≠ [] ∧ k.literal = Cell.chars b ++ s ∧ s <+: Cell.chars w

theorem Reaches.append_left {k : LexemeKind} {u w : List Cell} (h : Reaches k u w)
    (v : List Cell) : Reaches k (v ++ u) w := by
  obtain ⟨a, b, s, rfl, hb, hs, hk, hw⟩ := h
  exact ⟨v ++ a, b, s, (List.append_assoc _ _ _).symm, hb, hs, hk, hw⟩

theorem Lexed.reaches {u c y : List Cell} {k k' : LexemeKind} (h : Lexed (u ++ c) y k)
    (hu : u ≠ []) (hc : c ≠ []) (hk' : k' ∈ markers) (hw : k'.literal <+: Cell.chars (c ++ y)) :
    ∃ k ∈ markers, Reaches k u (c ++ y) := by
  generalize hx : u ++ c = x at h
  cases h with
  | @marker _ _ k hk hchars =>
    rw [← hx, Cell.chars_append] at hchars
    refine ⟨k, hk, [], u, Cell.chars c, rfl, hu, ?_, hchars.symm, ?_⟩
    · simpa [Cell.chars] using hc
    · rw [Cell.chars_append]
      exact List.prefix_append _ _
  | run _ hrun =>
    -- No marker begins with a character that a run holds.
    obtain ⟨a, c, rfl⟩ := List.exists_cons_of_ne_nil hc
    obtain ⟨b, t, hb⟩ := List.exists_cons_of_ne_nil (literal_ne_nil hk')
    rw [hb] at hw
    obtain ⟨rfl, -⟩ := List.cons_prefix_cons.mp hw
    have hno := hrun a (by simp [← hx])
    rw [isMarkerChar_of_literal hk' hb] at hno
    cases hno
  | stray =>
    have hlen := congrArg List.length hx
    have hu' := List.length_pos_iff.mpr hu
    have hc' := List.length_pos_iff.mpr hc
    simp only [List.length_append, List.length_singleton] at hlen
    omega

/-- Where a marker is written there is a lexeme, unless another marker reaches into it. -/
theorem Passes.marker_cases {x z u w : List Cell} {ls : List Lexeme} {k : LexemeKind}
    (h : Passes x z ls) (hk : k ∈ markers) (he : x ++ z = u ++ w) (hu : u.length < x.length)
    (hw : k.literal <+: Cell.chars w) :
    (∃ p l q, ls = p ++ l :: q ∧ p.flatMap (·.cells) = u ∧ Cell.chars l.cells = k.literal) ∨
      ∃ k' ∈ markers, Reaches k' u w := by
  induction h generalizing u with
  | nil => exact absurd hu (Nat.not_lt_zero _)
  | @cons x z l ls hl h ih =>
    have behind : ∀ v, u = l.cells ++ v → x ++ z = v ++ w →
        (∃ p l' q, l :: ls = p ++ l' :: q ∧ p.flatMap (·.cells) = u ∧
          Cell.chars l'.cells = k.literal) ∨ ∃ k' ∈ markers, Reaches k' u w := by
      rintro v rfl hv
      rcases ih hv (by simp only [List.length_append] at hu; omega) with
        ⟨p, l', q, rfl, hp, hl'⟩ | ⟨k', hk', hr⟩
      · exact .inl ⟨l :: p, l', q, rfl, by rw [List.flatMap_cons, hp], hl'⟩
      · exact .inr ⟨k', hk', hr.append_left _⟩
    rw [List.append_assoc] at he
    rcases List.append_eq_append_iff.mp he with ⟨v, hv, hvz⟩ | ⟨c, hc, rfl⟩
    · exact behind v hv hvz
    · by_cases hnil : c = []
      · subst hnil
        exact behind [] (by simpa using hc.symm) (by simp)
      · by_cases hunil : u = []
        · -- The marker is written where the lexeme begins.
          subst hunil
          rw [List.nil_append] at hc
          obtain ⟨t, ht⟩ := hw
          obtain ⟨o, r, ho, hchars, -⟩ := Cell.exists_append_of_chars_eq ht.symm
          have hn := next?_marker (y := r) hk hchars
          rw [← ho, ← hc, hl.next?_eq] at hn
          have hcells := congrArg Lexeme.cells (Prod.mk.inj (Option.some.inj hn)).1
          exact .inl ⟨[], l, ls, rfl, rfl, (congrArg Cell.chars hcells).trans hchars⟩
        · rw [hc] at hl
          exact .inr (hl.reaches hunil hnil hk hw)

theorem Reaches.exists_tail {k : LexemeKind} {u w : List Cell} (h : Reaches k u w) {t : Text}
    (hw : t <+: Cell.chars w) : ∃ s ∈ k.literal.tail.tails, s ≠ [] ∧ (s <+: t ∨ t <+: s) := by
  obtain ⟨a, b, s, rfl, hb, hs, he, hsw⟩ := h
  obtain ⟨c, b, rfl⟩ := List.exists_cons_of_ne_nil hb
  refine ⟨s, ?_, hs, List.prefix_or_prefix_of_prefix hsw hw⟩
  rw [List.mem_tails, he]
  exact ⟨Cell.chars b, rfl⟩

theorem Reaches.eq_commentOpen {k : LexemeKind} {u w : List Cell} (hk : k ∈ markers)
    (h : Reaches k u w) (hw : commentClose.literal <+: Cell.chars w) : k = commentOpen := by
  have hall : ∀ k ∈ markers, ∀ s ∈ k.literal.tail.tails, s ≠ [] →
      (s <+: commentClose.literal ∨ commentClose.literal <+: s) → k = commentOpen := by decide
  obtain ⟨s, hs, hne, hprefix⟩ := h.exists_tail hw
  exact hall k hk s hs hne hprefix

theorem Reaches.not_commentOpen {k : LexemeKind} {u w : List Cell} (hk : k ∈ markers)
    (h : Reaches k u w) : ¬ commentOpen.literal <+: Cell.chars w := by
  have hall : ∀ k ∈ markers, ∀ s ∈ k.literal.tail.tails, s ≠ [] →
      ¬ (s <+: commentOpen.literal ∨ commentOpen.literal <+: s) := by decide
  intro hw
  obtain ⟨s, hs, hne, hprefix⟩ := h.exists_tail hw
  exact hall k hk s hs hne hprefix

/-- Between the cells `u` of a body and the cells `w` behind them the comment ends: a closer stands
there on boundaries, and no opener reaches into it. -/
structure EndsAt (u w : List Cell) : Prop where
  closer : commentClose.literal <+: Cell.chars w
  start : Cell.atBoundary w = true
  stop : Cell.atBoundary (w.drop 3) = true
  free : ¬ Reaches commentOpen u w

theorem Passes.not_endsAt {x z u w : List Cell} {ls : List Lexeme} (h : Passes x z ls)
    (hls : ∀ l ∈ ls, l.kind ≠ commentClose) (he : x ++ z = u ++ w) (hu : u.length < x.length) :
    ¬ EndsAt u w := by
  intro hend
  rcases h.marker_cases (k := commentClose) (by decide) he hu hend.closer with
    ⟨p, l, q, rfl, hp, hl⟩ | ⟨k, hk, hr⟩
  · obtain ⟨u', v, rfl, hu', hv⟩ := h.split
    obtain rfl : u' = u := hu'.flatMap_cells.symm.trans hp
    rw [List.append_assoc, List.append_cancel_left_eq] at he
    cases hv with
    | @cons v _ _ _ hlex _ =>
      rw [List.append_assoc] at he
      have hdrop : w.drop 3 = v ++ z := by
        rw [← he, show 3 = l.cells.length by rw [← Cell.length_chars, hl]; rfl, List.drop_left]
      have hstart : Cell.atBoundary l.cells = true := by
        rw [← Cell.atBoundary_append hlex.ne_nil (v ++ z), he]
        exact hend.start
      have hkind : l.kind = commentClose := by
        rw [hlex.eq_kindBefore (k := commentClose) (by decide) hl, kindBefore, hstart, ← hdrop,
          hend.stop]
        rfl
      exact hls l (by simp) hkind
  · exact hend.free (hr.eq_commentOpen hk hend.closer ▸ hr)

theorem Passes.endsAt {x y : List Cell} {body : List Lexeme} {c : Lexeme}
    (hx : Passes x (c.cells ++ y) body) (hc : Lexed c.cells y c.kind)
    (hk : c.kind = commentClose) : EndsAt x (c.cells ++ y) := by
  obtain ⟨hchars, hstart, hstop⟩ := hc.chars_eq (by simp [hk])
  rw [hk] at hchars
  have hlen : c.cells.length = 3 := by
    rw [← Cell.length_chars, hchars]
    rfl
  refine ⟨?_, ?_, ?_, ?_⟩
  · rw [Cell.chars_append, hchars]
    exact List.prefix_append _ _
  · rwa [Cell.atBoundary_append hc.ne_nil]
  · rwa [← hlen, List.drop_left]
  · rintro ⟨a, b, s, rfl, hb, hs, he, hw⟩
    -- The opener would be a lexeme of the body that goes on behind it.
    have hopen : commentOpen.literal <+: Cell.chars (b ++ (c.cells ++ y)) := by
      rw [he, Cell.chars_append]
      exact (List.prefix_append_right_inj _).mpr hw
    have hlt : a.length < (a ++ b).length := by
      have := List.length_pos_iff.mpr hb
      simp only [List.length_append]
      omega
    rcases hx.marker_cases (k := commentOpen) (w := b ++ (c.cells ++ y)) (by decide)
      (by rw [List.append_assoc]) hlt hopen with ⟨p, l, q, rfl, hp, hl⟩ | ⟨k, hkm, hr⟩
    · have hcells := hx.flatMap_cells
      rw [List.flatMap_append, List.flatMap_cons, hp, List.append_cancel_left_eq] at hcells
      have hlong := congrArg List.length he
      have hs' := List.length_pos_iff.mpr hs
      rw [← hl, ← hcells] at hlong
      simp only [List.length_append, Cell.length_chars] at hlong
      omega
    · exact hr.not_commentOpen hkm hopen

/-- The body of a comment goes to the first place where the comment ends. -/
theorem cellsUntil_commentClose (cells : List Cell) :
    (∃ u w, cells = u ++ w ∧ EndsAt u w ∧ cellsUntil commentClose cells = u ++ w.take 3 ∧
      ∀ u' w', cells = u' ++ w' → u'.length < u.length → ¬ EndsAt u' w') ∨
    (cellsUntil commentClose cells = cells ∧ ∀ u w, cells = u ++ w → ¬ EndsAt u w) := by
  cases hu : unfoldUntil? List.length next? next?_shrinks
      (fun l => decide (l.kind = commentClose)) cells with
  | none =>
    refine .inr ⟨by rw [cellsUntil, hu], fun u w he hend => ?_⟩
    have hls : ∀ l ∈ ofCells cells, l.kind ≠ commentClose := by
      intro l hl
      have hno := (passes_ofCells cells).stop_eq_false (by rwa [List.append_nil]) l hl
      simpa using hno
    refine (passes_ofCells cells).not_endsAt hls (by rwa [List.append_nil]) ?_ hend
    have hw : w ≠ [] := by
      rintro rfl
      exact absurd (List.prefix_nil.mp hend.closer) (by decide)
    have hpos := List.length_pos_iff.mpr hw
    rw [he, List.length_append]
    omega
  | some ls =>
    obtain ⟨x, y, body, c, rfl, rfl, hx, hb, hc, hck⟩ := exists_of_unfoldUntil? hu
    have hb' : ∀ b ∈ body, b.kind ≠ commentClose := fun b hm => by simpa using hb b hm
    have hck' : c.kind = commentClose := by simpa using hck
    have hlen : c.cells.length = 3 := by
      rw [← Cell.length_chars, (hc.chars_eq (by simp [hck'])).1, hck']
      rfl
    refine .inl ⟨x, c.cells ++ y, rfl, hx.endsAt hc hck', ?_, fun u' w' he hlt => ?_⟩
    · rw [Step.cellsUntil_eq hx hb' hc hck', ← hlen, List.take_left]
    · exact hx.not_endsAt hb' he hlt

end Lexeme

open Lexeme

theorem Step.exists_opener_of_comment {d : Depths} {cells : List Cell} {s : Step}
    {t : Depths × List Cell} (h : next? (d, cells) = some (s, t)) (hs : s.kind = .comment) :
    ∃ o rest, cells = o ++ rest ∧ Cell.chars o = commentOpen.literal ∧
      s.cells = o ++ cellsUntil commentClose rest := by
  simp only [next?] at h
  split at h
  · cases h
  · rename_i l rest hn
    obtain ⟨rfl, hl⟩ := lexed_of_next? hn
    split at h
    · rename_i hk
      obtain ⟨rfl, -⟩ := Prod.mk.inj (Option.some.inj h)
      exact ⟨l.cells, rest, rfl, (hl.chars_eq (by simp [hk])).1.trans (by rw [hk]), rfl⟩
    · obtain ⟨rfl, -⟩ := Prod.mk.inj (Option.some.inj h)
      exact absurd hs (after_ne_comment d l.kind)

/-- In the text `t` the text `u` is written from the byte `p` on. -/
def Text.WrittenAt (t u : Text) (p : Nat) : Prop :=
  ∃ before behind, t = before ++ (u ++ behind) ∧ before.byteLength = p

theorem Text.writtenAt_iff {t u : Text} {x y : List Cell} (h : Cell.ofText t = x ++ y) :
    t.WrittenAt u (Cell.chars x).byteLength ↔ u <+: Cell.chars y := by
  have ht : t = Cell.chars x ++ Cell.chars y := by
    rw [← Cell.chars_append, ← h, Cell.chars_ofText]
  constructor
  · rintro ⟨before, behind, he, hlen⟩
    obtain ⟨-, hy⟩ := append_inj_of_byteLength (ht.symm.trans he) hlen.symm
    exact ⟨behind, hy.symm⟩
  · rintro ⟨behind, hy⟩
    exact ⟨Cell.chars x, behind, by rw [hy]; exact ht, rfl⟩

theorem Text.WrittenAt.exists_cells {t u : Text} {p : Nat} (h : t.WrittenAt u p) :
    ∃ x y, Cell.ofText t = x ++ y ∧ (Cell.chars x).byteLength = p ∧ u <+: Cell.chars y := by
  obtain ⟨before, behind, rfl, rfl⟩ := h
  obtain ⟨x, y, hxy, rfl, hy⟩ :=
    Cell.exists_append_of_chars_eq (Cell.chars_ofText (before ++ (u ++ behind)))
  exact ⟨x, y, hxy, rfl, ⟨behind, hy.symm⟩⟩

theorem Cell.exists_append_of_byteLength_le {x y w v : List Cell} (h : w ++ v = x ++ y)
    (hle : (chars w).byteLength ≤ (chars x).byteLength) : ∃ u, x = w ++ u ∧ v = u ++ y := by
  rcases List.append_eq_append_iff.mp h with ⟨u, hx, hv⟩ | ⟨u, hw, hy⟩
  · exact ⟨u, hx, hv⟩
  · obtain rfl : u = [] := by
      rw [hw, chars_append, Text.byteLength_append] at hle
      exact List.map_eq_nil_iff.mp (Text.eq_nil_of_byteLength_eq_zero (by
        change (chars u).byteLength = 0
        omega))
    exact ⟨[], by simpa using hw.symm, by simpa using hy.symm⟩

namespace Document

/-- A closer is written at the byte `p`, between cluster boundaries. -/
structure Closer (d : Document) (p : Nat) : Prop where
  written : d.text.WrittenAt commentClose.literal p
  start : d.isBoundary p = true
  stop : d.isBoundary (p + 3) = true

/-- An opener that is written at or behind the byte `first` reaches into what stands at the
byte `p`. -/
def Overrun (d : Document) (first p : Nat) : Prop :=
  ∃ q, first ≤ q ∧ q < p ∧ p < q + 4 ∧ d.text.WrittenAt commentOpen.literal q

/-- The first of the closers that satisfy `valid` at or behind the byte `first` ends at the byte
`stop`, or there is none and the text ends there. -/
def StopsAt (d : Document) (valid : Nat → Prop) (first stop : Nat) : Prop :=
  (∃ p, first ≤ p ∧ d.Closer p ∧ valid p ∧ stop = p + 3 ∧
    ∀ q, first ≤ q → q < p → d.Closer q → ¬ valid q) ∨
  (stop = d.text.byteLength ∧ ∀ q, first ≤ q → d.Closer q → ¬ valid q)

section

variable {t : Text} {x u w : List Cell}

theorem closer_iff (h : Cell.ofText t = x ++ w) : (ofText t).Closer (Cell.chars x).byteLength ↔
    commentClose.literal <+: Cell.chars w ∧ Cell.atBoundary w = true ∧
      Cell.atBoundary (w.drop 3) = true := by
  have hbehind (hw : commentClose.literal <+: Cell.chars w) :
      (ofText t).isBoundary ((Cell.chars x).byteLength + 3) = Cell.atBoundary (w.drop 3) := by
    obtain ⟨r, hr⟩ := hw
    obtain ⟨c, v, rfl, hc, -⟩ := Cell.exists_append_of_chars_eq hr.symm
    have hcut : Cell.ofText t = (x ++ c) ++ v := by rw [h, List.append_assoc]
    have hb := isBoundary_cut hcut
    rw [Cell.chars_append, Text.byteLength_append, hc] at hb
    have hlen : c.length = 3 := by
      rw [← Cell.length_chars, hc]
      rfl
    rw [← hlen, List.drop_left, ← hb, hlen]
    rfl
  constructor
  · rintro ⟨hwritten, hstart, hstop⟩
    have hw := (Text.writtenAt_iff h).mp hwritten
    exact ⟨hw, by rwa [isBoundary_cut h] at hstart, by rwa [hbehind hw] at hstop⟩
  · rintro ⟨hw, hstart, hstop⟩
    exact ⟨(Text.writtenAt_iff h).mpr hw, by rwa [isBoundary_cut h], by rwa [hbehind hw]⟩

theorem overrun_iff (h : Cell.ofText t = x ++ (u ++ w)) :
    (ofText t).Overrun (Cell.chars x).byteLength (Cell.chars (x ++ u)).byteLength ↔
      Reaches commentOpen u w := by
  constructor
  · rintro ⟨q, hfirst, hlt, hgt, hwritten⟩
    obtain ⟨y, v, hyv, rfl, hv⟩ := hwritten.exists_cells
    obtain ⟨a, rfl, he⟩ := Cell.exists_append_of_byteLength_le (h.symm.trans hyv) hfirst
    simp only [Cell.chars_append, Text.byteLength_append] at hlt hgt
    obtain ⟨b, rfl, rfl⟩ := Cell.exists_append_of_byteLength_le he.symm (by omega)
    simp only [Cell.chars_append, Text.byteLength_append] at hlt hgt hv
    have hb : b ≠ [] := by
      rintro rfl
      simp at hlt
    rcases List.prefix_or_prefix_of_prefix hv (List.prefix_append _ _) with ⟨s, hs⟩ | ⟨s, hs⟩
    · have hlen := congrArg Text.byteLength hs
      have hfour : Text.byteLength commentOpen.literal = 4 := rfl
      rw [Text.byteLength_append, hfour] at hlen
      omega
    · rw [← hs, List.prefix_append_right_inj] at hv
      refine ⟨a, b, s, rfl, hb, ?_, hs.symm, hv⟩
      rintro rfl
      have hlen := congrArg Text.byteLength hs
      have hfour : Text.byteLength commentOpen.literal = 4 := rfl
      rw [List.append_nil, hfour] at hlen
      omega
  · rintro ⟨a, b, s, rfl, hb, hs, he, hw⟩
    have hlen := congrArg Text.byteLength he
    have hfour : Text.byteLength commentOpen.literal = 4 := rfl
    have hbpos : 0 < (Cell.chars b).byteLength := Nat.pos_of_ne_zero fun hz =>
      hb (List.map_eq_nil_iff.mp (Text.eq_nil_of_byteLength_eq_zero hz))
    have hspos : 0 < Text.byteLength s := Nat.pos_of_ne_zero fun hz =>
      hs (Text.eq_nil_of_byteLength_eq_zero hz)
    rw [Text.byteLength_append, hfour] at hlen
    have hcut : Cell.ofText t = (x ++ a) ++ (b ++ w) := by rw [h]; simp only [List.append_assoc]
    refine ⟨(Cell.chars (x ++ a)).byteLength, ?_, ?_, ?_, (Text.writtenAt_iff hcut).mpr ?_⟩
    · rw [Cell.chars_append, Text.byteLength_append]
      omega
    · simp only [Cell.chars_append, Text.byteLength_append]
      omega
    · simp only [Cell.chars_append, Text.byteLength_append]
      omega
    · rw [he, Cell.chars_append]
      exact (List.prefix_append_right_inj _).mpr hw

theorem endsAt_iff (h : Cell.ofText t = x ++ (u ++ w)) : EndsAt u w ↔
    (ofText t).Closer (Cell.chars (x ++ u)).byteLength ∧
      ¬ (ofText t).Overrun (Cell.chars x).byteLength (Cell.chars (x ++ u)).byteLength := by
  rw [closer_iff (w := w) (by rw [h, List.append_assoc]), overrun_iff h]
  exact ⟨fun h => ⟨⟨h.closer, h.start, h.stop⟩, h.free⟩, fun h => ⟨h.1.1, h.1.2.1, h.1.2.2, h.2⟩⟩

end

end Document

/-- A comment goes to the first closer in its body that no opener of the body reaches into. -/
theorem stopsAt_comment {t : Text} {byte : Nat} {r : ByteRange} {s : Step}
    (h : (r, s) ∈ (Document.ofText t).stepsFrom byte) (hs : s.kind = .comment) :
    (Document.ofText t).StopsAt (fun p => ¬ (Document.ofText t).Overrun (r.start + 4) p)
      (r.start + 4) r.stop := by
  obtain ⟨x, y, e, f, hxy, hx, hn, hstop⟩ := Document.exists_of_mem_stepsFrom h
  obtain ⟨o, rest, rfl, ho, hcells⟩ := Step.exists_opener_of_comment hn hs
  have hbody : Cell.ofText t = (x ++ o) ++ rest := by rw [hxy, List.append_assoc]
  have hfirst : r.start + 4 = (Cell.chars (x ++ o)).byteLength := by
    rw [Cell.chars_append, Text.byteLength_append, hx, ho]
    rfl
  have hend : r.stop = (Cell.chars (x ++ o)).byteLength +
      (Cell.chars (cellsUntil commentClose rest)).byteLength := by
    rw [hstop, Step.text, hcells, Cell.chars_append, Text.byteLength_append, Cell.chars_append,
      Text.byteLength_append, hx, Nat.add_assoc]
  -- A closer in the body is a place of the body.
  have place : ∀ q, r.start + 4 ≤ q → (Document.ofText t).Closer q → ∃ u w, rest = u ++ w ∧
      (Cell.chars (x ++ o ++ u)).byteLength = q := by
    intro q hq hc
    obtain ⟨v, w, hvw, rfl, -⟩ := hc.written.exists_cells
    obtain ⟨u, rfl, he⟩ := Cell.exists_append_of_byteLength_le (hbody.symm.trans hvw)
      (by rwa [← hfirst])
    exact ⟨u, w, he, rfl⟩
  rw [hfirst] at place ⊢
  rcases cellsUntil_commentClose rest with ⟨u, w, rfl, hu, hbodyEnd, hno⟩ | ⟨hall, hno⟩
  · obtain ⟨hcloser, hfree⟩ := (Document.endsAt_iff hbody).mp hu
    obtain ⟨c, hc⟩ := hu.closer
    obtain ⟨v, w, rfl, hv, -⟩ := Cell.exists_append_of_chars_eq hc.symm
    have hlen : v.length = 3 := by
      rw [← Cell.length_chars, hv]
      rfl
    refine .inl ⟨_, ?_, hcloser, hfree, ?_, fun q hq hlt hc => ?_⟩
    · rw [Cell.chars_append _ u, Text.byteLength_append]
      exact Nat.le_add_right _ _
    · rw [hend, hbodyEnd, ← hlen, List.take_left, Cell.chars_append u, Cell.chars_append _ u,
        Text.byteLength_append, Text.byteLength_append, hv, hlen, Nat.add_assoc]
      rfl
    · obtain ⟨u', w', he, rfl⟩ := place q hq hc
      rw [Cell.chars_append _ u', Cell.chars_append _ u, Text.byteLength_append,
        Text.byteLength_append] at hlt
      obtain ⟨m, rfl, -⟩ := Cell.exists_append_of_byteLength_le he.symm (by omega)
      have hm : m ≠ [] := by
        rintro rfl
        simp at hlt
      have hshort : u'.length < (u' ++ m).length := by
        have := List.length_pos_iff.mpr hm
        rw [List.length_append]
        omega
      intro hq'
      exact hno u' w' he hshort ((Document.endsAt_iff (by rw [← he]; exact hbody)).mpr ⟨hc, hq'⟩)
  · refine .inr ⟨?_, fun q hq hc hq' => ?_⟩
    · rw [hend, hall, ← Text.byteLength_append, ← Cell.chars_append, ← hbody, Cell.chars_ofText]
      rfl
    · obtain ⟨u, w, rfl, rfl⟩ := place q hq hc
      exact hno u w rfl ((Document.endsAt_iff hbody).mpr ⟨hc, hq'⟩)

/-- A comment with two closers, into the first of which an opener reaches. -/
def nestedOpener : Text :=
  "a<!--<!-->b-->[[c]]".toList

theorem stopsAt_comment_nestedOpener : ∃ s,
    (⟨1, 14⟩, s) ∈ (Document.ofText nestedOpener).stepsFrom 0 ∧ s.kind = .comment ∧
    (Document.ofText nestedOpener).StopsAt
      (fun p => ¬ (Document.ofText nestedOpener).Overrun 5 p) 5 14 := by
  have hstep : ∃ p ∈ (Document.ofText nestedOpener).stepsFrom 0,
      p.1 = ⟨1, 14⟩ ∧ p.2.kind = .comment := by
    decide +kernel
  obtain ⟨⟨r, s⟩, hmem, rfl, hs⟩ := hstep
  exact ⟨s, hmem, hs, stopsAt_comment hmem hs⟩

/-- The first closer of a comment does not always end it: here it is at the byte 6, and the comment
goes on to the end of the text. -/
theorem comment_passes_closer : ∃ s,
    (⟨0, 14⟩, s) ∈ (Document.ofText "<!--<!-->[[b]]".toList).stepsFrom 0 ∧ s.kind = .comment ∧
    ¬ (Document.ofText "<!--<!-->[[b]]".toList).StopsAt (fun _ => True) 4 14 := by
  have hstep : ∃ p ∈ (Document.ofText "<!--<!-->[[b]]".toList).stepsFrom 0,
      p.1 = ⟨0, 14⟩ ∧ p.2.kind = .comment := by
    decide +kernel
  obtain ⟨⟨r, s⟩, hmem, rfl, hs⟩ := hstep
  have hcloser : (Document.ofText "<!--<!-->[[b]]".toList).Closer 6 :=
    ⟨⟨"<!--<!".toList, "[[b]]".toList, by decide, by decide⟩, by decide +kernel, by decide +kernel⟩
  refine ⟨s, hmem, hs, ?_⟩
  rintro (⟨p, -, -, -, hp, hno⟩ | ⟨-, hno⟩)
  · exact hno 6 (by decide) (by omega) hcloser trivial
  · exact hno 6 (by decide) hcloser trivial

end Wikitext
