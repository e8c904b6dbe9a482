import Wikitext.Marker.Step
import Wikitext.Proofs.Lexing

/-! The steps through a stretch of cells that leaves no comment open. They depend on what follows
the stretch only as far as its lexemes do, and on the template depth only up to a constant that it
never falls below. -/

namespace Wikitext

namespace Lexeme

variable {x y z : List Cell} {ls : List Lexeme} {stop : Lexeme → Bool}

theorem Passes.unfoldUntil?_eq (h : Passes x z ls) (hls : ∀ l ∈ ls, stop l = false) :
    unfoldUntil? List.length next? next?_shrinks stop (x ++ z) =
      (unfoldUntil? List.length next? next?_shrinks stop z).map (ls ++ ·) := by
  induction h with
  | nil => simp
  | cons hl _ ih =>
    rw [List.append_assoc, Wikitext.unfoldUntil?_eq, hl.next?_eq]
    simp only [hls _ List.mem_cons_self, Bool.false_eq_true, if_false]
    rw [ih fun l hl => hls l (List.mem_cons_of_mem _ hl), Option.map_map]
    rfl

theorem Passes.stop_eq_false (h : Passes x z ls)
    (hn : unfoldUntil? List.length next? next?_shrinks stop (x ++ z) = none) :
    ∀ l ∈ ls, stop l = false := by
  induction h with
  | nil => simp
  | @cons x z l ls hl _ ih =>
    rw [List.append_assoc, Wikitext.unfoldUntil?_eq, hl.next?_eq] at hn
    by_cases hs : stop l = true
    · simp [hs] at hn
    · rw [Bool.not_eq_true] at hs
      simp only [hs, Bool.false_eq_true, if_false, Option.map_eq_none_iff] at hn
      intro b hb
      rcases List.mem_cons.mp hb with rfl | hb
      · exact hs
      · exact ih hn b hb

theorem exists_of_unfoldUntil? {cells : List Cell}
    (h : unfoldUntil? List.length next? next?_shrinks stop cells = some ls) :
    ∃ x y body c, cells = x ++ (c.cells ++ y) ∧ ls = body ++ [c] ∧
      Passes x (c.cells ++ y) body ∧ (∀ l ∈ body, stop l = false) ∧
      Lexed c.cells y c.kind ∧ stop c = true := by
  induction ls generalizing cells with
  | nil =>
    rw [Wikitext.unfoldUntil?_eq] at h
    split at h
    · cases h
    · split at h
      · cases h
      · simp at h
  | cons l ls ih =>
    rw [Wikitext.unfoldUntil?_eq] at h
    split at h
    · cases h
    · rename_i l' y hn
      obtain ⟨rfl, hl⟩ := lexed_of_next? hn
      split at h
      · rename_i hs
        obtain ⟨rfl, rfl⟩ := List.cons.inj (Option.some.inj h)
        exact ⟨[], y, [], l', rfl, rfl, .nil, by simp, hl, hs⟩
      · rename_i hs
        obtain ⟨ms, hm, he⟩ := Option.map_eq_some_iff.mp h
        obtain ⟨rfl, rfl⟩ := List.cons.inj he
        obtain ⟨x, z, body, c, rfl, rfl, hp, hb, hc, hcs⟩ := ih hm
        refine ⟨l'.cells ++ x, z, l' :: body, c, by simp, rfl,
          .cons hl hp, fun b hmem => ?_, hc, hcs⟩
        rcases List.mem_cons.mp hmem with rfl | hmem
        · simpa using hs
        · exact hb b hmem

end Lexeme

open Lexeme

namespace Step

/-- `Groups d ls ss e`: from the depths `d` on, the lexemes `ls` make the steps `ss`, which leave
the depths `e` and no comment open. -/
inductive Groups : Depths → List Lexeme → List Step → Depths → Prop
  | nil {d : Depths} : Groups d [] [] d
  | lexeme {d e : Depths} {l : Lexeme} {ls : List Lexeme} {ss : List Step}
      (hk : l.kind ≠ .commentOpen) (h : Groups (d.after l.kind).2 ls ss e) :
      Groups d (l :: ls) (⟨(d.after l.kind).1, l.cells, (d.after l.kind).2⟩ :: ss) e
  | comment {d e : Depths} {l c : Lexeme} {body ls : List Lexeme} {ss : List Step}
      (hl : l.kind = .commentOpen) (hb : ∀ b ∈ body, b.kind ≠ .commentClose)
      (hc : c.kind = .commentClose) (h : Groups d ls ss e) :
      Groups d (l :: (body ++ c :: ls))
        (⟨.comment, l.cells ++ (body.flatMap (·.cells) ++ c.cells), d⟩ :: ss) e

theorem Groups.append {d e f : Depths} {ls ls' : List Lexeme} {ss ss' : List Step}
    (h : Groups d ls ss e) (h' : Groups e ls' ss' f) : Groups d (ls ++ ls') (ss ++ ss') f := by
  induction h with
  | nil => exact h'
  | lexeme hk _ ih => exact .lexeme hk (ih h')
  | comment hl hb hc _ ih =>
    simp only [List.cons_append, List.append_assoc]
    exact .comment hl hb hc (ih h')

theorem Groups.split {d e : Depths} {ls : List Lexeme} {ss ss' : List Step}
    (h : Groups d ls (ss ++ ss') e) : ∃ us vs f, ls = us ++ vs ∧ Groups d us ss f ∧
      Groups f vs ss' e := by
  induction ss generalizing d ls with
  | nil => exact ⟨[], ls, d, rfl, .nil, h⟩
  | cons s ss ih =>
    cases h with
    | @lexeme _ _ l _ _ hk h =>
      obtain ⟨us, vs, f, rfl, hu, hv⟩ := ih h
      exact ⟨l :: us, vs, f, rfl, .lexeme hk hu, hv⟩
    | @comment _ _ l c body _ _ hl hb hc h =>
      obtain ⟨us, vs, f, rfl, hu, hv⟩ := ih h
      exact ⟨l :: (body ++ c :: us), vs, f, by simp, .comment hl hb hc hu, hv⟩

theorem Groups.depths_eq {d e : Depths} {ls : List Lexeme} {ss : List Step}
    (h : Groups d ls ss e) : e = ss.foldl (fun _ s => s.depths) d := by
  induction h with
  | nil => rfl
  | lexeme _ _ ih => exact ih
  | comment _ _ _ _ ih => exact ih

/-- `Scans d x z ss e`: from the depths `d` on, the cells `x` with the cells `z` after them make the
steps `ss`, which leave the depths `e` and no comment open. -/
def Scans (d : Depths) (x z : List Cell) (ss : List Step) (e : Depths) : Prop :=
  ∃ ls, Passes x z ls ∧ Groups d ls ss e

theorem next?_lexeme {d : Depths} {y : List Cell} {l : Lexeme} (hl : Lexed l.cells y l.kind)
    (hk : l.kind ≠ .commentOpen) : next? (d, l.cells ++ y) =
      some (⟨(d.after l.kind).1, l.cells, (d.after l.kind).2⟩, ((d.after l.kind).2, y)) := by
  simp [next?, hl.next?_eq, hk]

theorem cellsUntil_eq {x y : List Cell} {c : Lexeme} {body : List Lexeme} {k : LexemeKind}
    (hx : Passes x (c.cells ++ y) body) (hb : ∀ b ∈ body, b.kind ≠ k)
    (hl : Lexed c.cells y c.kind) (hc : c.kind = k) :
    cellsUntil k (x ++ (c.cells ++ y)) = x ++ c.cells := by
  rw [cellsUntil, hx.unfoldUntil?_eq (fun l hl => by simpa using hb l hl),
    Wikitext.unfoldUntil?_eq, hl.next?_eq]
  simp [hc, hx.flatMap_cells]

theorem next?_comment {d : Depths} {x y : List Cell} {l c : Lexeme} {body : List Lexeme}
    (hl : Lexed l.cells (x ++ (c.cells ++ y)) l.kind) (hk : l.kind = .commentOpen)
    (hx : Passes x (c.cells ++ y) body) (hb : ∀ b ∈ body, b.kind ≠ .commentClose)
    (hc : Lexed c.cells y c.kind) (hck : c.kind = .commentClose) :
    next? (d, l.cells ++ (x ++ (c.cells ++ y))) =
      some (⟨.comment, l.cells ++ (x ++ c.cells), d⟩, (d, y)) := by
  simp [next?, hl.next?_eq, hk, cellsUntil_eq hx hb hc hck]

namespace Scans

variable {d e f : Depths} {x y z z' : List Cell} {ss ss' : List Step}

theorem nil : Scans d [] z [] d :=
  ⟨[], .nil, .nil⟩

theorem of_nil (h : Scans d [] z ss e) : ss = [] ∧ e = d := by
  obtain ⟨ls, hp, hg⟩ := h
  have hls : ls = [] := by
    generalize hx : ([] : List Cell) = x at hp
    cases hp with
    | nil => rfl
    | cons hl => exact absurd (List.append_eq_nil_iff.mp hx.symm).1 hl.ne_nil
  subst hls
  cases hg
  exact ⟨rfl, rfl⟩

theorem append (h : Scans d x (y ++ z) ss e) (h' : Scans e y z ss' f) :
    Scans d (x ++ y) z (ss ++ ss') f := by
  obtain ⟨ls, hp, hg⟩ := h
  obtain ⟨ls', hp', hg'⟩ := h'
  exact ⟨ls ++ ls', hp.append hp', hg.append hg'⟩

theorem split {p q : List Step} (h : Scans d x z (p ++ q) e) :
    ∃ u v f, x = u ++ v ∧ Scans d u (v ++ z) p f ∧ Scans f v z q e := by
  obtain ⟨ls, hp, hg⟩ := h
  obtain ⟨us, vs, f, rfl, hu, hv⟩ := hg.split
  obtain ⟨u, v, rfl, hpu, hpv⟩ := hp.split
  exact ⟨u, v, f, rfl, ⟨us, hpu, hu⟩, ⟨vs, hpv, hv⟩⟩

theorem replace (h : Scans d x z ss e) (hz : Replaces z z') : Scans d x z' ss e := by
  obtain ⟨ls, hp, hg⟩ := h
  exact ⟨ls, hp.replace hz, hg⟩

theorem flatMap_cells (h : Scans d x z ss e) : ss.flatMap (·.cells) = x := by
  obtain ⟨ls, hp, hg⟩ := h
  rw [← hp.flatMap_cells]
  clear hp
  induction hg with
  | nil => rfl
  | lexeme _ _ ih => simp [ih]
  | comment _ _ _ _ ih => simp [ih]

theorem depths_eq (h : Scans d x z ss e) : e = ss.foldl (fun _ s => s.depths) d := by
  obtain ⟨ls, -, hg⟩ := h
  exact hg.depths_eq

theorem scanFrom_eq (h : Scans d x z ss e) : scanFrom d (x ++ z) = ss ++ scanFrom e z := by
  obtain ⟨ls, hp, hg⟩ := h
  induction hg generalizing x with
  | nil =>
    cases hp
    rfl
  | lexeme hk _ ih =>
    cases hp with
    | cons hl hp =>
      rw [List.append_assoc, Step.scanFrom_eq, next?_lexeme hl hk]
      exact congrArg (_ :: ·) (ih hp)
  | @comment _ _ l c body ls _ hlk hb hc _ ih =>
    cases hp with
    | cons hl hp =>
      obtain ⟨u, w, rfl, hu, hw⟩ := hp.split
      cases hw with
      | @cons v _ _ _ hcl hv =>
        rw [List.append_assoc] at hu
        have he : l.cells ++ (u ++ (c.cells ++ v)) ++ z =
            l.cells ++ (u ++ (c.cells ++ (v ++ z))) := by
          simp only [List.append_assoc]
        rw [he, Step.scanFrom_eq, next?_comment (by simpa using hl) hlk hu hb hcl hc,
          ← hu.flatMap_cells]
        exact congrArg (_ :: ·) (ih hv)

end Scans

theorem after_ne_comment (d : Depths) (k : LexemeKind) : (d.after k).1 ≠ .comment := by
  cases k <;> simp only [Depths.after] <;> first | split <;> simp | simp

/-- One step reads a stretch of its own, unless it is a comment without an end. -/
theorem scans_of_next? {d e : Depths} {cells y : List Cell} {s : Step}
    (h : next? (d, cells) = some (s, (e, y)))
    (hy : s.kind = .comment → y ≠ [] ∨ ∃ l ∈ ofCells s.cells, l.kind = .commentClose) :
    cells = s.cells ++ y ∧ Scans d s.cells y [s] e := by
  simp only [next?] at h
  split at h
  · cases h
  · rename_i l rest hn
    obtain ⟨rfl, hl⟩ := lexed_of_next? hn
    split at h
    · rename_i hk
      cases hu : unfoldUntil? List.length Lexeme.next? Lexeme.next?_shrinks
          (fun l => decide (l.kind = .commentClose)) rest with
      | none =>
        simp only [Lexeme.cellsUntil, hu, List.drop_length, Option.some.injEq,
          Prod.mk.injEq] at h
        obtain ⟨rfl, rfl, rfl⟩ := h
        rcases hy rfl with hy | ⟨c, hc, hck⟩
        · exact absurd rfl hy
        · rw [Lexeme.ofCells_eq, hl.next?_eq] at hc
          rcases List.mem_cons.mp hc with rfl | hc
          · rw [hk] at hck
            cases hck
          · have hno := (passes_ofCells rest).stop_eq_false (by rwa [List.append_nil]) c hc
            simp [hck] at hno
      | some ls =>
        obtain ⟨u, v, body, c, rfl, rfl, hu', hb, hc, hck⟩ := exists_of_unfoldUntil? hu
        have hb' : ∀ b ∈ body, b.kind ≠ .commentClose := fun b hm => by simpa using hb b hm
        have hck' : c.kind = .commentClose := by simpa using hck
        rw [cellsUntil_eq hu' hb' hc hck', ← List.append_assoc u, List.drop_left] at h
        simp only [Option.some.injEq, Prod.mk.injEq] at h
        obtain ⟨rfl, rfl, rfl⟩ := h
        refine ⟨by simp, l :: (body ++ [c]), ?_, ?_⟩
        · exact .cons (by simpa using hl) (hu'.append (.singleton hc))
        · rw [← hu'.flatMap_cells]
          exact .comment hk hb' hck' .nil
    · rename_i hk
      simp only [Option.some.injEq, Prod.mk.injEq] at h
      obtain ⟨rfl, rfl, rfl⟩ := h
      exact ⟨rfl, [l], .singleton hl, .lexeme hk .nil⟩

theorem scanFrom_nil (d : Depths) : scanFrom d [] = [] := by
  rw [scanFrom_eq]
  rfl

theorem Scans.scanFrom_eq_of_end {d e : Depths} {x : List Cell} {ss : List Step}
    (h : Scans d x [] ss e) : scanFrom d x = ss := by
  have hscan := h.scanFrom_eq
  rwa [List.append_nil, scanFrom_nil, List.append_nil] at hscan

theorem exists_of_scanFrom_cons {d : Depths} {cells : List Cell} {s : Step} {ss : List Step}
    (h : scanFrom d cells = s :: ss) :
    ∃ e y, next? (d, cells) = some (s, (e, y)) ∧ scanFrom e y = ss := by
  rw [Step.scanFrom_eq] at h
  split at h
  · cases h
  · rename_i a t hn
    obtain ⟨rfl, hrest⟩ := List.cons.inj h
    exact ⟨t.1, t.2, hn, hrest⟩

theorem exists_scans {d : Depths} {cells : List Cell} {ss ss' : List Step}
    (h : scanFrom d cells = ss ++ ss') (hend : ss' = [] → ∀ s ∈ ss.getLast?, s.kind ≠ .comment) :
    ∃ x z e, cells = x ++ z ∧ Scans d x z ss e ∧ scanFrom e z = ss' := by
  induction ss generalizing d cells with
  | nil => exact ⟨[], cells, d, rfl, .nil, h⟩
  | cons s ss ih =>
    obtain ⟨f, y, hn, hrest⟩ := exists_of_scanFrom_cons h
    have hy : s.kind = .comment → y ≠ [] := by
      rintro hs rfl
      obtain ⟨rfl, rfl⟩ := List.append_eq_nil_iff.mp (hrest.symm.trans (scanFrom_nil f))
      exact hend rfl s rfl hs
    obtain ⟨rfl, hs⟩ := scans_of_next? hn fun ha => .inl (hy ha)
    obtain ⟨x, z, e, rfl, hx, hz⟩ := ih hrest fun he b hb => by
      cases ss with
      | nil => cases hb
      | cons c ss => exact hend he b (by simpa using hb)
    exact ⟨s.cells ++ x, z, e, by simp, hs.append hx, hz⟩

theorem scanUntil?_eq (stop : Step → Bool) (d : Depths) (cells : List Cell) :
    scanUntil? stop d cells = match next? (d, cells) with
      | none => none
      | some (a, t) => if stop a then some [a] else (scanUntil? stop t.1 t.2).map (a :: ·) := by
  rw [scanUntil?, Wikitext.unfoldUntil?_eq]
  cases next? (d, cells) <;> rfl

theorem scanUntil?_of_scanFrom {stop : Step → Bool} {d : Depths} {cells : List Cell}
    {us rest : List Step} {c : Step} (h : scanFrom d cells = us ++ c :: rest)
    (hus : ∀ s ∈ us, stop s = false) (hc : stop c = true) :
    scanUntil? stop d cells = some (us ++ [c]) := by
  induction us generalizing d cells with
  | nil =>
    obtain ⟨e, y, hn, -⟩ := exists_of_scanFrom_cons h
    rw [scanUntil?_eq, hn]
    exact if_pos hc
  | cons s us ih =>
    obtain ⟨e, y, hn, hrest⟩ := exists_of_scanFrom_cons h
    rw [scanUntil?_eq, hn]
    simp only [hus s List.mem_cons_self, Bool.false_eq_true, if_false]
    rw [ih hrest fun s hs => hus s (List.mem_cons_of_mem _ hs)]
    rfl

/-- Steps up to one that is looked for, which is no comment. -/
theorem exists_scans_until {stop : Step → Bool} (hstop : ∀ s, stop s = true → s.kind ≠ .comment)
    {d : Depths} {cells : List Cell} {ss : List Step} (h : scanUntil? stop d cells = some ss) :
    ∃ x z us c e, cells = x ++ z ∧ ss = us ++ [c] ∧ (∀ s ∈ us, stop s = false) ∧ stop c = true ∧
      Scans d x z (us ++ [c]) e := by
  induction ss generalizing d cells with
  | nil =>
    rw [scanUntil?_eq] at h
    split at h
    · cases h
    · split at h
      · cases h
      · simp at h
  | cons s ss ih =>
    rw [scanUntil?_eq] at h
    split at h
    · cases h
    · rename_i a t hn
      obtain ⟨f, y⟩ := t
      split at h
      · rename_i hs
        obtain ⟨rfl, rfl⟩ := List.cons.inj (Option.some.inj h)
        obtain ⟨rfl, hscan⟩ := scans_of_next? hn fun hk => absurd hk (hstop _ hs)
        exact ⟨_, y, [], _, f, rfl, rfl, by simp, hs, hscan⟩
      · rename_i hs
        obtain ⟨ms, hm, he⟩ := Option.map_eq_some_iff.mp h
        obtain ⟨rfl, rfl⟩ := List.cons.inj he
        have hy : y ≠ [] := by
          rintro rfl
          rw [scanUntil?_eq] at hm
          cases hm
        obtain ⟨rfl, hscan⟩ := scans_of_next? hn fun _ => .inl hy
        obtain ⟨x, z, us, c, e, rfl, rfl, hus, hc, hx⟩ := ih hm
        refine ⟨_, z, _ :: us, c, e, (List.append_assoc _ _ _).symm, rfl, fun b hb => ?_, hc,
          hscan.append hx⟩
        rcases List.mem_cons.mp hb with rfl | hb
        · simpa using hs
        · exact hus b hb

end Step

namespace StepKind

/-- The marker that a step of this kind consists of; a comment and text are no marker. -/
def literal : StepKind → Text
  | templateOpen => LexemeKind.templateOpen.literal
  | templateClose => LexemeKind.templateClose.literal
  | linkOpen => LexemeKind.linkOpen.literal
  | linkClose => LexemeKind.linkClose.literal
  | pipe => LexemeKind.pipe.literal
  | newline => LexemeKind.newline.literal
  | comment | text => []

theorem literal_after {d : Depths} {k : LexemeKind} (h : (d.after k).1 ≠ .text) :
    (d.after k).1.literal = k.literal ∧ k ≠ .text := by
  cases k with
  | templateClose =>
    by_cases h0 : d.template = 0
    · simp [Depths.after, h0] at h
    · simp [Depths.after, h0, literal]
  | linkClose =>
    by_cases h0 : d.link = 0
    · simp [Depths.after, h0] at h
    · simp [Depths.after, h0, literal]
  | commentOpen | commentClose | text => exact absurd rfl h
  | _ => exact ⟨rfl, nofun⟩

end StepKind

namespace Step

theorem Scans.text_eq {d e : Depths} {x z : List Cell} {ss : List Step} {s : Step}
    (h : Scans d x z ss e) (hs : s ∈ ss) (hc : s.kind ≠ .comment) (ht : s.kind ≠ .text) :
    s.text = s.kind.literal ∧ Cell.atBoundary s.cells = true := by
  obtain ⟨ls, hp, hg⟩ := h
  induction hg generalizing x with
  | nil => cases hs
  | @lexeme f _ l _ _ _ _ ih =>
    cases hp with
    | cons hl hp =>
      rcases List.mem_cons.mp hs with rfl | hs
      · obtain ⟨he, hk⟩ := StepKind.literal_after ht
        exact ⟨(hl.chars_eq hk).1.trans he.symm, (hl.chars_eq hk).2.1⟩
      · exact ih hs hp
  | comment _ _ _ _ ih =>
    cases hp with
    | cons hl hp =>
      rcases List.mem_cons.mp hs with rfl | hs
      · exact absurd rfl hc
      · obtain ⟨u, w, rfl, -, hw⟩ := hp.split
        cases hw with
        | cons _ hv => exact ih hs hv

end Step

namespace Depths

theorem link_after (d : Depths) (k : LexemeKind) :
    (d.after k).1 = .linkOpen ∧ (d.after k).2.link = d.link + 1 ∨
    (d.after k).1 = .linkClose ∧ (d.after k).2.link + 1 = d.link ∨
    (d.after k).1 ≠ .linkOpen ∧ (d.after k).1 ≠ .linkClose ∧ (d.after k).2.link = d.link := by
  cases k with
  | templateClose => by_cases h0 : d.template = 0 <;> simp [after, h0]
  | linkClose =>
    by_cases h0 : d.link = 0
    · simp [after, h0]
    · simp only [after, if_neg h0, true_and]
      omega
  | _ => simp [after]

theorem template_after (d : Depths) (k : LexemeKind) :
    (d.after k).1 = .templateOpen ∧ (d.after k).2.template = d.template + 1 ∨
    (d.after k).1 = .templateClose ∧ (d.after k).2.template + 1 = d.template ∨
    (d.after k).1 ≠ .templateOpen ∧ (d.after k).1 ≠ .templateClose ∧
      (d.after k).2.template = d.template := by
  cases k with
  | templateClose =>
    by_cases h0 : d.template = 0
    · simp [after, h0]
    · simp only [after, if_neg h0, true_and]
      omega
  | linkClose => by_cases h0 : d.link = 0 <;> simp [after, h0]
  | _ => simp [after]

theorem template_after_congr {d e : Depths} (h : e.template = d.template) (k : LexemeKind) :
    (e.after k).2.template = (d.after k).2.template := by
  cases k with
  | templateOpen => exact congrArg (· + 1) h
  | templateClose =>
    simp only [after, h]
    split
    · exact h
    · rfl
  | linkClose =>
    simp only [after]
    split <;> split <;> exact h
  | _ => exact h

theorem after_eq_linkOpen {d e : Depths} {k : LexemeKind} (h : d.after k = (.linkOpen, e)) :
    e = ⟨d.template, d.link + 1⟩ := by
  cases k <;> simp only [after, Prod.mk.injEq, reduceCtorEq, false_and, true_and] at h
  case linkOpen => exact h.symm
  all_goals split at h <;> simp at h

theorem after_eq_linkClose {d e : Depths} {k : LexemeKind} (h : d.after k = (.linkClose, e)) :
    d.link = e.link + 1 ∧ d.template = e.template := by
  cases k <;> simp only [after, Prod.mk.injEq, reduceCtorEq, false_and] at h
  case templateClose => split at h <;> simp at h
  case linkClose =>
    split at h
    · simp at h
    · simp only [Prod.mk.injEq, true_and] at h
      rw [← h]
      exact ⟨by simp only; omega, rfl⟩

def lower (n : Nat) (d : Depths) : Depths :=
  ⟨d.template - n, d.link⟩

theorem after_lower {n : Nat} {d : Depths} {k : LexemeKind} (hd : n ≤ d.template)
    (ha : n ≤ (d.after k).2.template) :
    (d.lower n).after k = ((d.after k).1, (d.after k).2.lower n) := by
  cases k with
  | templateClose =>
    by_cases h0 : d.template = 0
    · simp [after, lower, h0]
    · simp only [after, if_neg h0] at ha ⊢
      rw [if_neg (by simp only [lower]; omega)]
      simp only [lower, Prod.mk.injEq, mk.injEq, true_and, and_true]
      omega
  | templateOpen =>
    simp only [after, lower, Prod.mk.injEq, mk.injEq, true_and, and_true]
    omega
  | linkClose =>
    by_cases h0 : d.link = 0 <;> simp [after, lower, h0]
  | _ => rfl

end Depths

namespace Step

def lower (n : Nat) (s : Step) : Step :=
  ⟨s.kind, s.cells, s.depths.lower n⟩

@[simp]
theorem text_lower (n : Nat) (s : Step) : (s.lower n).text = s.text := rfl

/-- Steps that never fall below some template depth are the same with that many templates fewer. -/
theorem Scans.lower {d e : Depths} {x z : List Cell} {ss : List Step} {n : Nat}
    (h : Scans d x z ss e) (hd : n ≤ d.template) (hss : ∀ s ∈ ss, n ≤ s.depths.template) :
    Scans (d.lower n) x z (ss.map (Step.lower n)) (e.lower n) := by
  obtain ⟨ls, hp, hg⟩ := h
  refine ⟨ls, hp, ?_⟩
  clear hp
  induction hg with
  | nil => exact .nil
  | @lexeme f _ l _ _ hk _ ih =>
    have ha : n ≤ (f.after l.kind).2.template := hss _ List.mem_cons_self
    have hi := ih ha fun s hs => hss s (List.mem_cons_of_mem _ hs)
    have hl := Groups.lexeme (d := f.lower n) hk (by rw [Depths.after_lower hd ha]; exact hi)
    rw [Depths.after_lower hd ha] at hl
    exact hl
  | comment hl hb hc _ ih =>
    exact .comment hl hb hc (ih hd fun s hs => hss s (List.mem_cons_of_mem _ hs))

theorem Groups.exists_of_link {d e : Depths} {ls : List Lexeme} {ss : List Step}
    (h : Groups d ls ss e) (m : Nat) :
    ∃ ss' m', Groups ⟨d.template, m⟩ ls ss' ⟨e.template, m'⟩ := by
  induction h generalizing m with
  | nil => exact ⟨[], m, .nil⟩
  | @lexeme f _ l _ _ hk _ ih =>
    have ht := Depths.template_after_congr (d := f) (e := ⟨f.template, m⟩) rfl l.kind
    obtain ⟨ss', m', hg'⟩ := ih ((⟨f.template, m⟩ : Depths).after l.kind).2.link
    exact ⟨_, m', .lexeme hk (by rw [← ht] at hg'; exact hg')⟩
  | comment hl hb hc _ ih =>
    obtain ⟨ss', m', hg'⟩ := ih m
    exact ⟨_, m', .comment hl hb hc hg'⟩

theorem scans_marker {d : Depths} {x z : List Cell} {k : LexemeKind} (hk : k ∈ LexemeKind.markers)
    (hc : k ≠ .commentOpen) (hx : Cell.chars x = k.literal) (hb : Cell.atBoundary (x ++ z) = true)
    (hz : Cell.atBoundary z = true) :
    Scans d x z [⟨(d.after k).1, x, (d.after k).2⟩] (d.after k).2 :=
  ⟨[⟨k, x⟩], passes_marker hk hx hb hz, .lexeme (l := ⟨k, x⟩) hc .nil⟩

theorem exists_groups_of_plain {d : Depths} {ls : List Lexeme}
    (h : ∀ l ∈ ls, l.kind = .text ∨ l.kind = .newline ∨ l.kind = .commentClose) :
    ∃ ss, Groups d ls ss d ∧ ∀ s ∈ ss, (s.kind = .text ∨ s.kind = .newline) ∧ s.depths = d := by
  induction ls with
  | nil => exact ⟨[], .nil, by simp⟩
  | cons l ls ih =>
    obtain ⟨ss, hg, hss⟩ := ih fun l hl => h l (List.mem_cons_of_mem _ hl)
    have hl : l.kind ≠ .commentOpen ∧ (d.after l.kind).2 = d ∧
        ((d.after l.kind).1 = .text ∨ (d.after l.kind).1 = .newline) := by
      rcases h l List.mem_cons_self with h | h | h <;> simp [h, Depths.after]
    refine ⟨_, .lexeme hl.1 (by rw [hl.2.1]; exact hg), fun s hs => ?_⟩
    rcases List.mem_cons.mp hs with rfl | hs
    · exact ⟨hl.2.2, hl.2.1⟩
    · exact hss s hs

theorem exists_scans_plain {d : Depths} {x z : List Cell} (hx : (Cell.chars x).Plain)
    (hc : ¬ LexemeKind.commentOpen.literal <:+: Cell.chars x) (hz : Stops z) :
    ∃ ss, Scans d x z ss d ∧ ∀ s ∈ ss, (s.kind = .text ∨ s.kind = .newline) ∧ s.depths = d := by
  obtain ⟨ls, hp, hls⟩ := exists_passes_plain hx hc hz
  obtain ⟨ss, hg, hss⟩ := exists_groups_of_plain (d := d) hls
  exact ⟨ss, ⟨ls, hp, hg⟩, hss⟩

theorem scans_comment {d : Depths} {o b c z : List Cell}
    (ho : Cell.chars o = LexemeKind.commentOpen.literal) (hlt : '<' ∉ Cell.chars b)
    (hend : ¬ LexemeKind.commentClose.literal <:+: Cell.chars b)
    (hc : Cell.chars c = LexemeKind.commentClose.literal)
    (hbo : Cell.atBoundary (o ++ (b ++ (c ++ z))) = true)
    (hbb : Cell.atBoundary (b ++ (c ++ z)) = true) (hbc : Cell.atBoundary (c ++ z) = true)
    (hbz : Cell.atBoundary z = true) :
    Scans d (o ++ (b ++ c)) z [⟨.comment, o ++ (b ++ c), d⟩] d := by
  obtain ⟨body, hp, hbody⟩ := exists_passes_commentBody (z := c ++ z) hlt hend (by
    rw [Cell.chars_append, hc]
    exact List.prefix_append _ _)
  have hpo : Passes o ((b ++ c) ++ z) [⟨.commentOpen, o⟩] :=
    passes_marker (by decide) ho (by rwa [List.append_assoc]) (by rwa [List.append_assoc])
  have hpc : Passes c z [⟨.commentClose, c⟩] := passes_marker (by decide) hc hbc hbz
  refine ⟨_, hpo.append (hp.append hpc), ?_⟩
  rw [← hp.flatMap_cells]
  exact .comment (l := ⟨.commentOpen, o⟩) (c := ⟨.commentClose, c⟩) rfl hbody rfl .nil

theorem Scans.exists_last {d e : Depths} {x z : List Cell} {p : List Step} {s : Step}
    (h : Scans d x z (p ++ [s]) e) (hs : s.kind ≠ .text) :
    ∃ ls l, Passes x z (ls ++ [l]) ∧ Groups d (ls ++ [l]) (p ++ [s]) e ∧ l.kind ≠ .text := by
  obtain ⟨ls, hp, hg⟩ := h
  have hg' := hg
  obtain ⟨us, vs, f, rfl, -, hv⟩ := hg'.split
  cases hv with
  | @lexeme _ _ l _ _ _ h =>
    cases h
    exact ⟨us, l, hp, hg, (StepKind.literal_after hs).2⟩
  | @comment _ _ l c body _ _ _ _ hc h =>
    cases h
    have he : us ++ l :: (body ++ [c]) = (us ++ l :: body) ++ [c] := by simp
    rw [he] at hp hg
    exact ⟨us ++ l :: body, c, hp, hg, by simp [hc]⟩

theorem Scans.boundary_after {d e : Depths} {x z : List Cell} {p : List Step} {s : Step}
    (h : Scans d x z (p ++ [s]) e) (hs : s.kind ≠ .text) : Cell.atBoundary z = true := by
  obtain ⟨ls, l, hp, -, hl⟩ := h.exists_last hs
  obtain ⟨u, v, rfl, -, hv⟩ := hp.split
  exact (hv.lexed_of_singleton.2.chars_eq hl).2.2

/-- Behind a step other than text anything may follow, if only the boundary stays. -/
theorem Scans.replace_after {d e : Depths} {x z z' : List Cell} {p : List Step} {s : Step}
    (h : Scans d x z (p ++ [s]) e) (hs : s.kind ≠ .text) (hb : Cell.atBoundary z' = true) :
    Scans d x z' (p ++ [s]) e := by
  obtain ⟨ls, l, hp, hg, hl⟩ := h.exists_last hs
  obtain ⟨u, v, rfl, -, hv⟩ := hp.split
  obtain ⟨hx, -, hz⟩ := hv.lexed_of_singleton.2.chars_eq hl
  exact ⟨_, hp.replace_after_marker (LexemeKind.mem_markers hl) hx (hb.trans hz.symm), hg⟩

theorem Scans.depths_of_getLast {d e : Depths} {x z : List Cell} {p : List Step} {s : Step}
    (h : Scans d x z (p ++ [s]) e) : e = s.depths := by
  rw [h.depths_eq, List.foldl_append]
  rfl

theorem Scans.exists_after {d e : Depths} {x z : List Cell} {s : Step} (h : Scans d x z [s] e)
    (hs : s.kind ≠ .comment) : ∃ k, d.after k = (s.kind, e) := by
  obtain ⟨ls, -, hg⟩ := h
  cases hg with
  | @lexeme _ _ l _ _ _ h =>
    cases h
    exact ⟨l.kind, rfl⟩
  | comment => exact absurd rfl hs

/-- `Prepended b ss ss'`: the steps `ss'` are those of `ss` with the cell `b` before them, which is
text and joins the text it meets. -/
inductive Prepended (b : Cell) : List Step → List Step → Prop
  | apart {d : Depths} {ss : List Step} : Prepended b ss (⟨.text, [b], d⟩ :: ss)
  | joined {x : List Cell} {d : Depths} {ss : List Step} :
      Prepended b (⟨.text, x, d⟩ :: ss) (⟨.text, b :: x, d⟩ :: ss)

theorem Scans.exists_prepended {d e : Depths} {x z : List Cell} {ss : List Step} {b : Cell}
    (h : Scans d x z ss e) (hb : isMarkerChar b.char = false)
    (hz : x = [] → ∀ a ∈ z.head?, isMarkerChar a.char = true) :
    ∃ ss', Scans d (b :: x) z ss' e ∧ Prepended b ss ss' := by
  obtain ⟨ls, hp, hg⟩ := h
  -- In front of a marker, or of what looks like one, the cell stands alone.
  have apart : (∀ a ∈ (x ++ z).head?, isMarkerChar a.char = true) →
      ∃ ss', Scans d (b :: x) z ss' e ∧ Prepended b ss ss' := by
    intro hhead
    have hl : Lexed [b] (x ++ z) .text :=
      .run (List.cons_ne_nil _ _) (by simpa using hb) hhead
    exact ⟨_, ⟨_, .cons (l := ⟨.text, [b]⟩) hl hp, .lexeme (l := ⟨.text, [b]⟩) nofun hg⟩, .apart⟩
  cases hp with
  | nil => exact apart (by simpa using hz rfl)
  | @cons x _ l ls hl hp =>
    obtain ⟨k, y⟩ := l
    change Lexed y (x ++ z) k at hl
    cases hl with
    | marker hk hx =>
      apply apart
      intro a ha
      obtain ⟨c, t, ht⟩ := List.exists_cons_of_ne_nil (LexemeKind.literal_ne_nil hk)
      cases y with
      | nil => cases hx.trans ht
      | cons a' y =>
        obtain rfl : a' = a := by simpa using ha
        obtain ⟨rfl, -⟩ := List.cons.inj (hx.trans ht)
        exact LexemeKind.isMarkerChar_of_literal hk ht
    | stray ha => exact apart (by simpa using ha)
    | run hne hx hy =>
      have hl : Lexed (b :: y) (x ++ z) .text := .run (List.cons_ne_nil _ _) (by
        intro a ha
        rcases List.mem_cons.mp ha with rfl | ha
        · exact hb
        · exact hx a ha) hy
      cases hg with
      | lexeme _ hg =>
        exact ⟨_, ⟨_, .cons (l := ⟨.text, b :: y⟩) hl hp, .lexeme (l := ⟨.text, b :: y⟩) nofun hg⟩,
          .joined⟩
      | comment hk => cases hk

end Step

end Wikitext
