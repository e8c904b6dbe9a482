import Wikitext.LeadingBlock
import Wikitext.Proofs.Scanning

/-! The leading block as a stretch of its document. Unless it ends in a comment without an end it
leaves no template and no comment open, and it ends with a marker, so that anything may follow it
at the boundary behind it. -/

namespace Wikitext

open Step Lexeme

namespace Lexeme

variable {x y z : List Cell} {ls ls' : List Lexeme}

/-- The cells `x` are the lexemes `ls` whatever follows them at a cluster boundary. -/
def Severed (x : List Cell) (ls : List Lexeme) : Prop :=
  ∀ z, Cell.atBoundary z = true → Passes x z ls

theorem severed_nil : Severed [] [] := fun _ _ => .nil

theorem Passes.severed {l : Lexeme} {k : LexemeKind} (h : Passes x z (ls ++ [l]))
    (hk : k ∈ LexemeKind.markers) (hl : Cell.chars l.cells = k.literal)
    (hz : Cell.atBoundary z = true) : Severed x (ls ++ [l]) :=
  fun _ hz' => h.replace_after_marker hk hl (hz'.trans hz.symm)

theorem Severed.append (h : Severed x ls) (h' : Severed y ls')
    (hy : Cell.atBoundary y = true) : Severed (x ++ y) (ls ++ ls') := by
  intro z hz
  exact (h (y ++ z) (Cell.atBoundary_append_of hy hz)).append (h' z hz)

end Lexeme

/-- Line feeds, each with a carriage return before it or without. -/
inductive Newlines : List Cell → Prop
  | nil : Newlines []
  | feed {a : Cell} {x : List Cell} (ha : a.char = '\n') (h : Newlines x) : Newlines (a :: x)
  | pair {a b : Cell} {x : List Cell} (ha : a.char = '\r') (hb : b.char = '\n')
      (h : Newlines x) : Newlines (a :: b :: x)

namespace Newlines

theorem exists_countNewlinesFrom (n : Nat) (cells : List Cell) :
    ∃ k, LeadingItem.countNewlinesFrom n cells = n + k ∧ Newlines (cells.take k) ∧
      ¬ ['\n'] <+: Cell.chars (cells.drop k) ∧ ¬ ['\r', '\n'] <+: Cell.chars (cells.drop k) := by
  fun_induction LeadingItem.countNewlinesFrom n cells with
  | case1 n => exact ⟨0, rfl, .nil, by simp, by simp⟩
  | case2 n a ha => exact ⟨1, rfl, .feed ha .nil, by simp, by simp⟩
  | case3 n a ha => exact ⟨0, rfl, .nil, by simpa using Ne.symm ha, by simp⟩
  | case4 n a b r ha ih =>
    obtain ⟨k, hk, hn, hstop⟩ := ih
    exact ⟨k + 1, by omega, .feed ha hn, hstop⟩
  | case5 n a b r ha hb ih =>
    obtain ⟨k, hk, hn, hstop⟩ := ih
    simp only [Bool.and_eq_true, decide_eq_true_eq] at hb
    exact ⟨k + 2, by omega, .pair hb.1 hb.2 hn, hstop⟩
  | case6 n a b r ha hb =>
    simp only [Bool.and_eq_true, decide_eq_true_eq] at hb
    refine ⟨0, rfl, .nil, by simpa using Ne.symm ha, fun h => hb ?_⟩
    simpa [eq_comm] using h

theorem take_countNewlines (cells : List Cell) :
    Newlines (cells.take (LeadingItem.countNewlines cells)) := by
  obtain ⟨k, hk, hn, -⟩ := exists_countNewlinesFrom 0 cells
  rw [LeadingItem.countNewlines, hk, Nat.zero_add]
  exact hn

theorem drop_countNewlines (cells : List Cell) :
    ¬ ['\n'] <+: Cell.chars (cells.drop (LeadingItem.countNewlines cells)) ∧
      ¬ ['\r', '\n'] <+: Cell.chars (cells.drop (LeadingItem.countNewlines cells)) := by
  obtain ⟨k, hk, -, hstop⟩ := exists_countNewlinesFrom 0 cells
  rw [LeadingItem.countNewlines, hk, Nat.zero_add]
  exact hstop

theorem lexed_feed {a : Cell} (ha : a.char = '\n') (y : List Cell) :
    ∃ k, Lexed [a] y k ∧ (k = .text ∨ k = .newline) := by
  refine ⟨_, .marker (k := .newline) (by decide) (by rw [Cell.chars_cons, ha]; rfl), ?_⟩
  rw [kindBefore]
  split
  · exact .inr rfl
  · exact .inl rfl

theorem exists_passes {x : List Cell} (h : Newlines x) (z : List Cell) : ∃ ls, Passes x z ls ∧
    (∀ l ∈ ls, l.kind = .text ∨ l.kind = .newline) ∧
    (x = [] ∧ ls = [] ∨ ∃ us l, ls = us ++ [l] ∧ Cell.chars l.cells = ['\n']) := by
  induction h with
  | nil => exact ⟨[], .nil, by simp, .inl ⟨rfl, rfl⟩⟩
  | @feed a x ha _ ih =>
    obtain ⟨ls, hp, hk, hlast⟩ := ih
    obtain ⟨k, hl, hkind⟩ := lexed_feed ha (x ++ z)
    refine ⟨⟨k, [a]⟩ :: ls, .cons (l := ⟨k, [a]⟩) hl hp, fun l hmem => ?_, .inr ?_⟩
    · rcases List.mem_cons.mp hmem with rfl | hmem
      · exact hkind
      · exact hk l hmem
    · rcases hlast with ⟨rfl, rfl⟩ | ⟨us, l, rfl, hl⟩
      · exact ⟨[], _, rfl, by rw [Cell.chars_cons, ha]; rfl⟩
      · exact ⟨_ :: us, l, rfl, hl⟩
  | @pair a b x ha hb _ ih =>
    obtain ⟨ls, hp, hk, hlast⟩ := ih
    obtain ⟨k, hl, hkind⟩ := lexed_feed hb (x ++ z)
    have hrun : Lexed [a] (([b] ++ x) ++ z) .text := .run (by simp) (by simp [ha]; decide)
      (by simp [hb]; decide)
    refine ⟨⟨.text, [a]⟩ :: ⟨k, [b]⟩ :: ls, .cons (l := ⟨.text, [a]⟩) hrun
      (.cons (l := ⟨k, [b]⟩) hl hp), fun l hmem => ?_, .inr ?_⟩
    · rcases List.mem_cons.mp hmem with rfl | hmem
      · exact .inl rfl
      · rcases List.mem_cons.mp hmem with rfl | hmem
        · exact hkind
        · exact hk l hmem
    · rcases hlast with ⟨rfl, rfl⟩ | ⟨us, l, rfl, hl⟩
      · exact ⟨[_], _, rfl, by rw [Cell.chars_cons, hb]; rfl⟩
      · exact ⟨_ :: _ :: us, l, rfl, hl⟩

theorem eq_nil_or_concat {x : List Cell} (h : Newlines x) :
    x = [] ∨ ∃ u : Text, Cell.chars x = u ++ ['\n'] := by
  obtain ⟨ls, hp, -, ⟨hx, -⟩ | ⟨us, l, rfl, hl⟩⟩ := h.exists_passes []
  · exact .inl hx
  · refine .inr ⟨Cell.chars (us.flatMap (·.cells)), ?_⟩
    rw [← hp.flatMap_cells, List.flatMap_append, List.flatMap_singleton, Cell.chars_append, hl]

/-- Behind line breaks that a boundary parts from what is ahead of them lies a boundary. -/
theorem atBoundary_behind {t : Text} {w x z : List Cell} (h : Newlines x)
    (ht : Cell.ofText t = w ++ (x ++ z)) (hb : Cell.atBoundary (x ++ z) = true) :
    Cell.atBoundary z = true := by
  rcases h.eq_nil_or_concat with rfl | ⟨u, hu⟩
  · exact hb
  · have hcut : Cell.ofText t = (w ++ x) ++ z := by rw [ht, List.append_assoc]
    rw [← Text.parted_of_ofText_eq_append hcut, Cell.chars_append, hu, ← List.append_assoc]
    exact Text.parted_after_lineFeed _ _

end Newlines

theorem exists_passes_white {x z : List Cell} (hx : ∀ a ∈ x, isWhite a.char = true)
    (hz : ∀ a ∈ z.head?, isMarkerChar a.char = true) :
    ∃ ls, Passes x z ls ∧ ∀ l ∈ ls, l.kind = .text ∨ l.kind = .newline := by
  have hwhite : ∀ c ∈ Cell.chars x, isWhite c = true := by
    intro c hc
    obtain ⟨a, ha, rfl⟩ := List.mem_map.mp hc
    exact hx a ha
  have honly : ∀ k ∈ LexemeKind.markers, (∀ c ∈ k.literal.head?, isWhite c = true) →
      k = .newline := by decide
  have hclosed : Closed x z := by
    refine ⟨hz, fun k hk p q hp hq he hs => ?_⟩
    obtain ⟨c, r, rfl⟩ := List.exists_cons_of_ne_nil hp
    have hc : isWhite c = true := hwhite c (hs.subset List.mem_cons_self)
    obtain rfl := honly k hk (by simpa [he] using hc)
    have hlen := congrArg List.length he
    have hq' := List.length_pos_iff.mpr hq
    simp only [LexemeKind.literal, List.length_append, List.length_cons, List.length_nil] at hlen
    omega
  obtain ⟨ls, hp, hls⟩ := hclosed.exists_passes
  refine ⟨ls, hp, fun l hl => (hls l hl).imp_right ?_⟩
  rintro ⟨hk, hi⟩
  refine honly _ hk fun c hc => hwhite c (hi.subset ?_)
  exact List.mem_of_mem_head? hc

/-- Cells that may be read alone wherever no template is open, and leave none open: they hold whole
templates and whole comments. -/
structure Balanced (x : List Cell) : Prop where
  ends : ∀ a ∈ x.getLast?, a.char = '\n' ∨ BreakClass.of a.char = .other
  reads : ∃ ls, Severed x ls ∧ ∀ m, ∃ ss m', Groups ⟨0, m⟩ ls ss ⟨0, m'⟩

namespace Balanced

variable {x y z : List Cell}

theorem nil : Balanced [] :=
  ⟨by simp, [], severed_nil, fun m => ⟨[], m, .nil⟩⟩

theorem append (h : Balanced x) (h' : Balanced y) (hy : Cell.atBoundary y = true) :
    Balanced (x ++ y) := by
  obtain ⟨ls, hs, hg⟩ := h.reads
  obtain ⟨ls', hs', hg'⟩ := h'.reads
  refine ⟨fun a ha => ?_, ls ++ ls', hs.append hs' hy, fun m => ?_⟩
  · rw [List.getLast?_append] at ha
    rcases Option.or_eq_some_iff.mp ha with ha | ⟨-, ha⟩
    · exact h'.ends a ha
    · exact h.ends a ha
  · obtain ⟨ss, m', hss⟩ := hg m
    obtain ⟨ss', m'', hss'⟩ := hg' m'
    exact ⟨ss ++ ss', m'', hss.append hss'⟩

theorem of_newlines (h : Newlines x) : Balanced x := by
  obtain ⟨ls, hp, hk, hlast⟩ := h.exists_passes []
  have hgroups (m : Nat) : ∃ ss m', Groups ⟨0, m⟩ ls ss ⟨0, m'⟩ := by
    obtain ⟨ss, hg, -⟩ := exists_groups_of_plain (d := ⟨0, m⟩) fun l hl => (hk l hl).imp_right .inl
    exact ⟨ss, m, hg⟩
  rcases hlast with ⟨rfl, rfl⟩ | ⟨us, l, rfl, hl⟩
  · exact .nil
  · refine ⟨fun a ha => .inl ?_, _, hp.severed (k := .newline) (by decide) hl rfl, hgroups⟩
    rw [← hp.flatMap_cells, List.flatMap_append, List.flatMap_singleton] at ha
    obtain ⟨b, hb⟩ : ∃ b, l.cells = [b] := List.length_eq_one_iff.mp (by
      rw [← Cell.length_chars, hl]
      rfl)
    rw [hb] at ha hl
    obtain rfl : b = a := by simpa using ha
    simpa using hl

theorem of_scans {p : List Step} {s : Step} {m m' : Nat}
    (h : Scans ⟨0, m⟩ x z (p ++ [s]) ⟨0, m'⟩) (hs : s.kind ≠ .text) : Balanced x := by
  obtain ⟨ls, l, hp, hg, hl⟩ := h.exists_last hs
  obtain ⟨u, v, rfl, -, hv⟩ := hp.split
  obtain ⟨rfl, hlex⟩ := hv.lexed_of_singleton
  obtain ⟨hchars, -, hz⟩ := hlex.chars_eq hl
  have hk := LexemeKind.mem_markers hl
  refine ⟨fun a ha => ?_, _, hp.severed hk hchars hz, fun m => hg.exists_of_link m⟩
  have hall : ∀ k ∈ LexemeKind.markers, ∀ c ∈ k.literal.getLast?,
      c = '\n' ∨ BreakClass.of c = .other := by decide
  apply hall _ hk a.char
  rw [List.getLast?_append_of_ne_nil _ hlex.ne_nil] at ha
  rw [← hchars, Cell.chars, List.getLast?_map, Option.mem_def.mp ha]
  rfl

theorem white (hx : ∀ a ∈ x, isWhite a.char = true) (hy : Balanced y) {k : LexemeKind}
    (hk : k ∈ LexemeKind.markers) (hopen : k.literal <+: Cell.chars y) : Balanced (x ++ y) := by
  obtain ⟨t, ht⟩ := hopen
  obtain ⟨o, b, rfl, ho, -⟩ := Cell.exists_append_of_chars_eq ht.symm
  have hne : o ≠ [] := by
    rintro rfl
    exact LexemeKind.literal_ne_nil hk ho.symm
  obtain ⟨us, hp, hus⟩ := exists_passes_white (z := o ++ b) hx fun a ha => by
    obtain ⟨c, r, rfl⟩ := List.exists_cons_of_ne_nil hne
    obtain rfl : c = a := by simpa using ha
    exact LexemeKind.isMarkerChar_of_literal hk ho.symm
  obtain ⟨ls, hs, hg⟩ := hy.reads
  refine ⟨fun a ha => hy.ends a ?_, us ++ ls, fun z hz => ?_, fun m => ?_⟩
  · rwa [List.getLast?_append_of_ne_nil _ (by simp [hne])] at ha
  · refine Passes.append ?_ (hs z hz)
    rw [List.append_assoc]
    exact hp.replace (replaces_append_marker hk ho)
  · obtain ⟨ws, hw, -⟩ := exists_groups_of_plain (d := ⟨0, m⟩)
      fun l hl => (hus l hl).imp_right .inl
    obtain ⟨ss, m', hss⟩ := hg m
    exact ⟨ws ++ ss, m', hw.append hss⟩

end Balanced

namespace Step

theorem exists_marker_of_next? {d : Depths} {cells : List Cell} {s : Step}
    {t : Depths × List Cell} (h : next? (d, cells) = some (s, t)) (hs : s.kind ≠ .text) :
    Cell.atBoundary s.cells = true ∧ ∃ k ∈ LexemeKind.markers, k.literal <+: Cell.chars s.cells ∧
      (s.kind = .comment → k = .commentOpen) ∧
      (s.kind ≠ .comment → s.kind.literal = k.literal) := by
  simp only [next?] at h
  split at h
  · cases h
  · rename_i l rest hn
    obtain ⟨-, hl⟩ := lexed_of_next? hn
    split at h
    · rename_i hk
      obtain ⟨hchars, hb, -⟩ := hl.chars_eq (by simp [hk])
      obtain ⟨rfl, -⟩ := Prod.mk.inj (Option.some.inj h)
      refine ⟨?_, .commentOpen, by decide, ?_, fun _ => rfl, fun hc => absurd rfl hc⟩
      · rw [Cell.atBoundary_append hl.ne_nil]
        exact hb
      · rw [Cell.chars_append, hchars, hk]
        exact List.prefix_append _ _
    · obtain ⟨rfl, -⟩ := Prod.mk.inj (Option.some.inj h)
      obtain ⟨hliteral, hk⟩ := StepKind.literal_after hs
      obtain ⟨hchars, hb, -⟩ := hl.chars_eq hk
      exact ⟨hb, l.kind, LexemeKind.mem_markers hk, by rw [hchars],
        fun hc => absurd hc (after_ne_comment d l.kind), fun _ => hliteral⟩

theorem cellsUntil_begins (k : LexemeKind) (cells : List Cell) :
    cellsUntil k cells <+: cells := by
  rw [cellsUntil]
  split
  · rename_i ls hu
    obtain ⟨x, y, body, c, rfl, rfl, hx, -⟩ := exists_of_unfoldUntil? hu
    rw [List.flatMap_append, List.flatMap_singleton, hx.flatMap_cells, ← List.append_assoc]
    exact List.prefix_append _ _
  · exact List.prefix_rfl

theorem next?_tiles {d e : Depths} {cells y : List Cell} {s : Step}
    (h : next? (d, cells) = some (s, (e, y))) : cells = s.cells ++ y := by
  simp only [next?] at h
  split at h
  · cases h
  · rename_i l rest hn
    obtain ⟨rfl, -⟩ := lexed_of_next? hn
    split at h <;> cases h
    · rw [List.append_assoc, List.prefix_iff_eq_append.mp (cellsUntil_begins _ _)]
    · rfl

theorem Scans.eq_of_comment {d e : Depths} {x z : List Cell} {s : Step} (h : Scans d x z [s] e)
    (hs : s.kind = .comment) : e = d := by
  obtain ⟨ls, -, hg⟩ := h
  cases hg with
  | lexeme => exact absurd hs (after_ne_comment _ _)
  | comment _ _ _ h =>
    cases h
    rfl

end Step

namespace LeadingItem

/-- A comment that is never closed. -/
def Unterminated (i : LeadingItem) : Prop :=
  LexemeKind.commentOpen.literal <+: i.body ∧
    ∀ l ∈ Lexeme.ofCells (Cell.ofText i.body), l.kind ≠ .commentClose

instance (i : LeadingItem) : Decidable i.Unterminated :=
  inferInstanceAs (Decidable (_ ∧ ∀ l ∈ _, _ ≠ _))

theorem exists_opener_of_body {c : List Cell} {steps : List Step}
    (h : bodySteps? c = some steps) : Cell.atBoundary (steps.flatMap (·.cells)) = true ∧
      ∃ k ∈ [LexemeKind.commentOpen, .templateOpen],
        k.literal <+: Cell.chars (steps.flatMap (·.cells)) := by
  simp only [bodySteps?] at h
  split at h
  · cases h
  · rename_i s d rest hn
    have hne := Step.next?_cells_ne_nil hn
    have hfirst (hs : s.kind = .comment ∨ s.kind = .templateOpen) (more : List Step) :
        Cell.atBoundary ((s :: more).flatMap (·.cells)) = true ∧
        ∃ k ∈ [LexemeKind.commentOpen, .templateOpen],
          k.literal <+: Cell.chars ((s :: more).flatMap (·.cells)) := by
      obtain ⟨hb, k, -, hp, hcomment, hother⟩ :=
        exists_marker_of_next? hn (by rcases hs with hs | hs <;> simp [hs])
      rw [List.flatMap_cons, Cell.atBoundary_append hne, Cell.chars_append]
      have hp' := hp.trans (List.prefix_append _ (Cell.chars (more.flatMap (·.cells))))
      rcases hs with hs | hs
      · rw [hcomment hs] at hp'
        exact ⟨hb, _, by simp, hp'⟩
      · rw [← hother (by simp [hs]), hs] at hp'
        exact ⟨hb, .templateOpen, by simp, hp'⟩
    split at h
    · rename_i hk
      obtain rfl := Option.some.inj h
      exact hfirst (.inl hk) []
    · rename_i hk
      obtain ⟨more, -, rfl⟩ := Option.map_eq_some_iff.mp h
      exact hfirst (.inr hk) more
    · cases h

theorem exists_cons_of_body {c : List Cell} {steps : List Step} (h : bodySteps? c = some steps) :
    ∃ a r, steps.flatMap (·.cells) = a :: r ∧ a.char ∈ ['<', '{'] ∧ isWhite a.char = false := by
  obtain ⟨-, k, hk, u, hu⟩ := exists_opener_of_body h
  have hopeners : ∀ k ∈ [LexemeKind.commentOpen, .templateOpen], k.literal ≠ [] ∧
      ∀ c ∈ k.literal.head?, c ∈ ['<', '{'] ∧ isWhite c = false := by decide
  obtain ⟨hne, hfirst⟩ := hopeners k hk
  obtain ⟨c, r, hliteral⟩ := List.exists_cons_of_ne_nil hne
  rw [hliteral, List.cons_append] at hu
  obtain ⟨a, s, hs, rfl, -⟩ := List.map_eq_cons_iff.mp hu.symm
  exact ⟨a, s, hs, hfirst a.char (by rw [hliteral]; rfl)⟩

/-- The steps of a comment, or those of a template up to the `}}` that closes it. -/
inductive Body : List Step → Prop
  | comment {s : Step} (hs : s.kind = .comment) : Body [s]
  | template {s c : Step} {us : List Step} (hs : s.kind = .templateOpen)
      (hus : ∀ u ∈ us, closes u = false) (hc : closes c = true) : Body (s :: (us ++ [c]))

theorem kind_of_closes {s : Step} (h : closes s = true) : s.kind = .templateClose := by
  simp only [closes, Bool.and_eq_true, decide_eq_true_eq] at h
  exact h.1

theorem Body.exists_last {steps : List Step} (h : Body steps) :
    ∃ us c, steps = us ++ [c] ∧ c.kind ≠ .text := by
  cases h with
  | comment hs => exact ⟨[], _, rfl, by simp [hs]⟩
  | template _ _ hc => exact ⟨_ :: _, _, rfl, by simp [kind_of_closes hc]⟩

/-- What an item consists of is read as a stretch, unless it is a comment that has no end. -/
theorem exists_scans_body {c : List Cell} {steps : List Step} (h : bodySteps? c = some steps)
    (hend : c = steps.flatMap (·.cells) →
      LexemeKind.commentOpen.literal <+: Cell.chars (steps.flatMap (·.cells)) →
      ∃ l ∈ Lexeme.ofCells (steps.flatMap (·.cells)), l.kind = .commentClose) :
    Body steps ∧ ∃ y m, c = steps.flatMap (·.cells) ++ y ∧
      Scans .zero (steps.flatMap (·.cells)) y steps ⟨0, m⟩ := by
  simp only [bodySteps?] at h
  split at h
  · cases h
  · rename_i s d y hn
    split at h
    · rename_i hk
      obtain rfl := Option.some.inj h
      obtain ⟨-, k, -, hp, hopen, -⟩ := exists_marker_of_next? hn (by simp [hk])
      rw [hopen hk] at hp
      rw [List.flatMap_singleton] at hend ⊢
      obtain ⟨rfl, hs⟩ := scans_of_next? hn fun _ => by
        by_cases hy : y = []
        · refine .inr (hend ?_ hp)
          rw [next?_tiles hn, hy, List.append_nil]
        · exact .inl hy
      obtain rfl := hs.eq_of_comment hk
      exact ⟨.comment hk, y, 0, rfl, hs⟩
    · rename_i hk
      obtain ⟨more, hm, rfl⟩ := Option.map_eq_some_iff.mp h
      obtain ⟨rfl, hs⟩ := scans_of_next? hn fun hc => by
        rw [hk] at hc
        cases hc
      have hstop : ∀ s, closes s = true → s.kind ≠ .comment := by
        intro s hs
        simp [kind_of_closes hs]
      obtain ⟨x, z, us, a, e, rfl, rfl, hus, ha, hx⟩ := exists_scans_until hstop hm
      have hall := hs.append hx
      have htemplate : e.template = 0 := by
        simp only [closes, Bool.and_eq_true, decide_eq_true_eq] at ha
        rw [hx.depths_of_getLast, ha.2]
      have hcells : (s :: (us ++ [a])).flatMap (·.cells) = s.cells ++ x := hall.flatMap_cells
      rw [hcells]
      refine ⟨.template hk hus ha, z, e.link, (List.append_assoc _ _ _).symm, ?_⟩
      rw [← htemplate]
      exact hall
    · cases h

/-- The body of an item is a template or a comment on its own, unless the comment has no end. -/
theorem balanced_body {c : List Cell} {steps : List Step} (h : bodySteps? c = some steps)
    (hend : c = steps.flatMap (·.cells) →
      LexemeKind.commentOpen.literal <+: Cell.chars (steps.flatMap (·.cells)) →
      ∃ l ∈ Lexeme.ofCells (steps.flatMap (·.cells)), l.kind = .commentClose) :
    ∃ y, c = steps.flatMap (·.cells) ++ y ∧ Balanced (steps.flatMap (·.cells)) ∧
      Cell.atBoundary y = true := by
  obtain ⟨hbody, y, m, hy, hs⟩ := exists_scans_body h hend
  obtain ⟨us, c, rfl, hc⟩ := hbody.exists_last
  exact ⟨y, hy, .of_scans hs hc, hs.boundary_after hc⟩

theorem Body.bodySteps?_eq {x z : List Cell} {steps : List Step} {e : Depths}
    (h : Body steps) (hs : Scans .zero x z steps e) : bodySteps? (x ++ z) = some steps := by
  have hscan := hs.scanFrom_eq
  cases h with
  | comment hk =>
    obtain ⟨d, y, hn, -⟩ := exists_of_scanFrom_cons hscan
    rw [bodySteps?, hn]
    simp only [hk]
  | template hk hus hc =>
    rw [List.cons_append] at hscan
    obtain ⟨d, y, hn, hrest⟩ := exists_of_scanFrom_cons hscan
    rw [List.append_assoc, List.singleton_append] at hrest
    rw [bodySteps?, hn]
    simp only [hk, scanUntil?_of_scanFrom hrest hus hc, Option.map_some]

/-- The body of an item does not depend on what stands behind it, unless it is a comment that has no
end. -/
theorem bodySteps?_replace {y z : List Cell} {steps : List Step}
    (h : bodySteps? (steps.flatMap (·.cells) ++ y) = some steps)
    (hend : y = [] → LexemeKind.commentOpen.literal <+: Cell.chars (steps.flatMap (·.cells)) →
      ∃ l ∈ Lexeme.ofCells (steps.flatMap (·.cells)), l.kind = .commentClose)
    (hz : Cell.atBoundary z = true) :
    bodySteps? (steps.flatMap (·.cells) ++ z) = some steps := by
  obtain ⟨hbody, y', m, hy, hs⟩ := exists_scans_body h fun hall => hend (by simpa using hall)
  obtain ⟨us, c, rfl, hc⟩ := hbody.exists_last
  exact hbody.bodySteps?_eq (hs.replace_after hc hz)

theorem exists_behind_body {c : List Cell} {steps : List Step} (h : bodySteps? c = some steps) :
    ∃ y, c = steps.flatMap (·.cells) ++ y ∧ Cell.atBoundary y = true := by
  by_cases hall : c = steps.flatMap (·.cells)
  · exact ⟨[], by simpa using hall, rfl⟩
  · obtain ⟨y, hy, -, hb⟩ := balanced_body h fun he => absurd he hall
    exact ⟨y, hy, hb⟩

/-- The cells of an item: blanks, the steps of its body, and the line breaks behind them. -/
structure Parts (i : LeadingItem) (blank : List Cell) (steps : List Step) (feeds : List Cell) :
    Prop where
  item : i = ⟨Cell.chars blank, Cell.chars (steps.flatMap (·.cells)), Cell.chars feeds⟩
  white : ∀ a ∈ blank, isWhite a.char = true
  newlines : Newlines feeds

theorem exists_parts {c rest : List Cell} {i : LeadingItem} (h : next? c = some (i, rest)) :
    ∃ blank steps feeds, c = blank ++ (steps.flatMap (·.cells) ++ (feeds ++ rest)) ∧
      Parts i blank steps feeds ∧
      bodySteps? (steps.flatMap (·.cells) ++ (feeds ++ rest)) = some steps ∧
      ¬ ['\n'] <+: Cell.chars rest ∧ ¬ ['\r', '\n'] <+: Cell.chars rest := by
  simp only [next?] at h
  split at h
  · cases h
  · rename_i steps hb
    obtain ⟨rfl, rfl⟩ := Prod.mk.inj (Option.some.inj h)
    have hc : c = c.takeWhile (isWhite ·.char) ++ c.dropWhile (isWhite ·.char) :=
      List.takeWhile_append_dropWhile.symm
    have hwhite : ∀ a ∈ c.takeWhile (isWhite ·.char), isWhite a.char = true := fun a ha => by
      simpa using List.mem_takeWhile_imp ha
    generalize c.takeWhile (isWhite ·.char) = blank at *
    generalize c.dropWhile (isWhite ·.char) = behind at *
    obtain ⟨y, rfl, -⟩ := exists_behind_body hb
    rw [List.drop_left]
    refine ⟨blank, steps, y.take (countNewlines y), ?_,
      ⟨rfl, hwhite, Newlines.take_countNewlines y⟩, ?_, Newlines.drop_countNewlines y⟩
    · rw [List.take_append_drop]
      exact hc
    · rw [List.take_append_drop]
      exact hb

theorem exists_close_of_terminated {t : Text} {w y : List Cell} {steps : List Step}
    {i : LeadingItem} (ht : Cell.ofText t = w ++ (steps.flatMap (·.cells) ++ y))
    (hb : Cell.atBoundary (steps.flatMap (·.cells) ++ y) = true)
    (hi : i.body = Cell.chars (steps.flatMap (·.cells))) (hend : ¬ i.Unterminated)
    (hopen : LexemeKind.commentOpen.literal <+: Cell.chars (steps.flatMap (·.cells))) :
    ∃ l ∈ Lexeme.ofCells (steps.flatMap (·.cells)), l.kind = .commentClose := by
  simp only [Unterminated, hi, Text.ofText_chars_of_eq_append ht hb, not_and] at hend
  simpa using hend hopen

theorem exists_of_next? {t : Text} {w c rest : List Cell} {i : LeadingItem}
    (ht : Cell.ofText t = w ++ c) (h : next? c = some (i, rest))
    (hend : rest = [] → ¬ i.Unterminated) : ∃ x, c = x ++ rest ∧ Cell.chars x = i.text ∧ x ≠ [] ∧
      Balanced x ∧ Cell.atBoundary rest = true := by
  obtain ⟨blank, steps, feeds, rfl, hi, hb, -⟩ := exists_parts h
  have hmarkers : ∀ k ∈ [LexemeKind.commentOpen, .templateOpen], k ∈ LexemeKind.markers := by
    decide
  obtain ⟨hopens, k, hk, hmarker⟩ := exists_opener_of_body hb
  obtain ⟨y, hy, hbalanced, hbehind⟩ := balanced_body hb fun hall hopen => by
    have hrest : feeds ++ rest = [] := by simpa using hall
    obtain ⟨-, rfl⟩ := List.append_eq_nil_iff.mp hrest
    refine exists_close_of_terminated (t := t) (w := w ++ blank) (y := []) ?_ ?_ ?_ (hend rfl) hopen
    · rw [ht, hrest]
      simp
    · rwa [List.append_nil]
    · rw [hi.item]
  rw [List.append_cancel_left_eq] at hy
  subst hy
  have hfeeds : Cell.atBoundary feeds = true := Cell.atBoundary_of_append hbehind
  refine ⟨blank ++ (steps.flatMap (·.cells) ++ feeds), by simp, ?_, ?_, ?_, ?_⟩
  · rw [hi.item]
    simp [text]
  · have hne := bodySteps?_cells_ne_nil hb
    simp [hne]
  · refine .white hi.white (hbalanced.append (.of_newlines hi.newlines) hfeeds) (hmarkers k hk) ?_
    rw [Cell.chars_append]
    exact hmarker.trans (List.prefix_append _ _)
  · exact hi.newlines.atBoundary_behind (t := t) (w := w ++ (blank ++ steps.flatMap (·.cells)))
      (by rw [ht]; simp only [List.append_assoc]) hbehind

end LeadingItem

namespace LeadingBlock

theorem itemsOf_eq (cells : List Cell) : itemsOf cells = match LeadingItem.next? cells with
    | none => []
    | some (i, rest) => i :: itemsOf rest := by
  rw [itemsOf, unfold_eq]
  cases LeadingItem.next? cells <;> rfl

theorem itemsOf_nil : itemsOf [] = [] := by
  rw [itemsOf_eq]
  rfl

/-- The leading block can be read alone, unless a comment without an end is its last item. -/
theorem exists_of_itemsOf {t : Text} {w c : List Cell} (ht : Cell.ofText t = w ++ c)
    (hc : Cell.atBoundary c = true) (hend : ∀ i ∈ (itemsOf c).getLast?, ¬ i.Unterminated) :
    ∃ x z, c = x ++ z ∧ Cell.chars x = (itemsOf c).flatMap LeadingItem.text ∧ Balanced x ∧
      Cell.atBoundary z = true := by
  generalize hn : c.length = n
  induction n using Nat.strongRecOn generalizing w c with
  | ind n ih =>
    rw [itemsOf_eq] at hend ⊢
    cases hi : LeadingItem.next? c with
    | none => exact ⟨[], c, rfl, rfl, .nil, hc⟩
    | some p =>
      obtain ⟨i, rest⟩ := p
      simp only [hi] at hend ⊢
      have hlt : rest.length < n := hn ▸ LeadingItem.next?_shrinks _ _ _ hi
      obtain ⟨x, rfl, hx, -, hbx, hrest⟩ := LeadingItem.exists_of_next? ht hi fun he => by
        apply hend i
        rw [he, itemsOf_nil]
        rfl
      obtain ⟨y, z, rfl, hy, hby, hz⟩ := ih _ hlt (w := w ++ x)
        (by rw [ht, List.append_assoc]) hrest
        (fun j hj => hend j (by rw [List.getLast?_cons, Option.mem_def.mp hj]; rfl)) rfl
      refine ⟨x ++ y, z, by simp, ?_, hbx.append hby (Cell.atBoundary_of_append hrest), hz⟩
      rw [Cell.chars_append, hx, hy]
      rfl

end LeadingBlock

end Wikitext
