import Wikitext.Proofs.CommentEnd

/-! The steps of a scan lie one behind the other from where it starts to the end of the text, each a
marker on cluster boundaries or text, and their depths count the markers: what is open at a place is
what was opened before it less what was closed. What one step does is said once, with the place at
which it stands, and carried along the scan. -/

namespace Wikitext

open LexemeKind

/-- `Counts d k d'`: a step of the kind `k` leaves the depths `d'` where `d` stood before it. An
opener raises its own depth by one, and a closer lowers its own, which is not zero, by one. -/
inductive Depths.Counts : Depths → StepKind → Depths → Prop
  | templateOpen {m n : Nat} : Counts ⟨m, n⟩ .templateOpen ⟨m + 1, n⟩
  | templateClose {m n : Nat} : Counts ⟨m + 1, n⟩ .templateClose ⟨m, n⟩
  | linkOpen {m n : Nat} : Counts ⟨m, n⟩ .linkOpen ⟨m, n + 1⟩
  | linkClose {m n : Nat} : Counts ⟨m, n + 1⟩ .linkClose ⟨m, n⟩
  | other {d : Depths} {k : StepKind} (hk : k ∈ [.comment, .pipe, .newline, .text]) : Counts d k d

namespace Depths

theorem counts_after (d : Depths) (k : LexemeKind) : d.Counts (d.after k).1 (d.after k).2 := by
  obtain ⟨m, n⟩ := d
  cases k with
  | templateOpen => exact .templateOpen
  | linkOpen => exact .linkOpen
  | templateClose =>
    cases m with
    | zero => exact .other (by simp [after])
    | succ m => exact .templateClose
  | linkClose =>
    cases n with
    | zero => exact .other (by simp [after])
    | succ n => exact .linkClose
  | _ => exact .other (by simp [after])

theorem template_eq_zero_of_after {d : Depths} (h : (d.after .templateClose).1 = .text) :
    d.template = 0 := by
  by_contra hne
  simp [after, hne] at h

theorem link_eq_zero_of_after {d : Depths} (h : (d.after .linkClose).1 = .text) : d.link = 0 := by
  by_contra hne
  simp [after, hne] at h

theorem Counts.balance {d d' : Depths} {k : StepKind} (h : d.Counts k d') :
    d.template + (if k = .templateOpen then 1 else 0) =
      d'.template + (if k = .templateClose then 1 else 0) ∧
    d.link + (if k = .linkOpen then 1 else 0) = d'.link + (if k = .linkClose then 1 else 0) := by
  cases h with
  | other hk =>
    simp only [List.mem_cons, List.not_mem_nil, or_false] at hk
    rcases hk with rfl | rfl | rfl | rfl <;> exact ⟨rfl, rfl⟩
  | _ => exact ⟨rfl, rfl⟩

end Depths

namespace Step

theorem counts_of_next? {d e : Depths} {cells y : List Cell} {s : Step}
    (h : next? (d, cells) = some (s, (e, y))) : d.Counts s.kind s.depths := by
  obtain ⟨rfl, ⟨hk, rfl⟩ | ⟨k, hk⟩⟩ := depths_of_next? h
  · rw [hk]
    exact .other (by decide)
  · have hcounts := d.counts_after k
    rwa [hk] at hcounts

theorem next?_eq_none {d : Depths} {cells : List Cell} (h : next? (d, cells) = none) :
    cells = [] := by
  have hnil := Lexeme.passes_ofCells cells
  have hlexeme : Lexeme.next? cells = none := by
    simp only [next?] at h
    split at h
    · assumption
    · split at h <;> cases h
  rw [Lexeme.ofCells_eq, hlexeme] at hnil
  exact hnil.flatMap_cells.symm

theorem eq_nil_of_scanFrom {d : Depths} {cells : List Cell} (h : scanFrom d cells = []) :
    cells = [] := by
  rw [scanFrom_eq] at h
  split at h
  · rename_i hn
    exact next?_eq_none hn
  · cases h

theorem textOf_scanFrom (d : Depths) (cells : List Cell) :
    textOf (scanFrom d cells) = Cell.chars cells := by
  obtain ⟨z, hz, hrest⟩ := exists_behind (List.append_nil (scanFrom d cells)).symm
  rw [eq_nil_of_scanFrom hrest.symm, List.append_nil] at hz
  rw [← chars_flatMap_cells, ← hz]

theorem byteLength_pos_of_next? {d e : Depths} {cells y : List Cell} {s : Step}
    (h : next? (d, cells) = some (s, (e, y))) : 0 < s.text.byteLength := by
  obtain ⟨a, r, hcons⟩ := List.exists_cons_of_ne_nil (next?_cells_ne_nil h)
  rw [text, hcons, Cell.chars_cons, Text.byteLength_cons]
  exact Nat.lt_of_lt_of_le a.char.utf8Size_pos (Nat.le_add_right _ _)

/-- A step begins with a lexeme, and is one unless it is a comment. -/
theorem exists_lexeme_of_next? {d e : Depths} {cells y : List Cell} {s : Step}
    (h : next? (d, cells) = some (s, (e, y))) : ∃ l rest, Lexeme.next? cells = some (l, rest) ∧
      (s.kind = .comment ∧ l.kind = .commentOpen ∨
        l.cells = s.cells ∧ rest = y ∧ d.after l.kind = (s.kind, e)) := by
  simp only [next?] at h
  split at h
  · cases h
  · rename_i l rest hn
    refine ⟨l, rest, hn, ?_⟩
    split at h
    · rename_i hk
      cases h
      exact .inl ⟨rfl, hk⟩
    · cases h
      exact .inr ⟨rfl, rfl, rfl⟩

theorem boundaries_of_next? {d e : Depths} {cells y : List Cell} {s : Step}
    (h : next? (d, cells) = some (s, (e, y))) (hs : s.kind ≠ .text) :
    Cell.atBoundary cells = true ∧ Cell.atBoundary y = true := by
  constructor
  · rw [next?_tiles h, Cell.atBoundary_append (next?_cells_ne_nil h)]
    exact (exists_marker_of_next? h hs).1
  · by_cases hy : y = []
    · rw [hy]
      rfl
    · obtain ⟨-, hscan⟩ := scans_of_next? h fun _ => .inl hy
      exact hscan.boundary_after (p := []) hs

/-- A closer that is written on boundaries is taken for text only where it has nothing to close. -/
theorem after_of_next? {d e : Depths} {cells y : List Cell} {s : Step} {k : LexemeKind}
    (h : next? (d, cells) = some (s, (e, y))) (hs : s.kind ≠ .comment) (hk : k ∈ markers)
    (htext : s.text = k.literal) (hstart : Cell.atBoundary cells = true)
    (hstop : Cell.atBoundary y = true) : d.after k = (s.kind, e) := by
  obtain ⟨l, rest, hn, hcase⟩ := exists_lexeme_of_next? h
  rcases hcase with ⟨hc, -⟩ | ⟨hcells, rfl, hafter⟩
  · exact absurd hc hs
  · obtain ⟨rfl, hl⟩ := Lexeme.lexed_of_next? hn
    rw [Cell.atBoundary_append hl.ne_nil] at hstart
    have hkind := hl.eq_kindBefore hk (by rw [hcells]; exact htext)
    rw [Lexeme.kindBefore, hstart, hstop] at hkind
    rw [show k = l.kind from hkind.symm, hafter]

end Step

namespace Document

/-- `StepAt d e r s`: at the bytes `r` the document has the step `s`, with the depths `e` before
it. -/
structure StepAt (d : Document) (e : Depths) (r : ByteRange) (s : Step) : Prop where
  nonempty : r.start < r.stop
  text : s.text = d.text.slice r.start r.stop
  /-- Outside comments the steps are the lexemes. -/
  lexeme : ∃ l rest, Lexeme.next? (d.cellsFrom r.start) = some (l, rest) ∧
    (s.kind = .comment ∧ l.kind = .commentOpen ∨ s.cells = l.cells)
  boundaries : s.kind ≠ .text → d.isBoundary r.start = true ∧ d.isBoundary r.stop = true
  literal : s.kind ≠ .text → s.kind ≠ .comment → s.text = s.kind.literal
  comment : s.kind = .comment → commentOpen.literal <+: s.text
  counts : e.Counts s.kind s.depths
  stray : s.kind = .text → d.isBoundary r.start = true → d.isBoundary r.stop = true →
    (s.text = templateClose.literal → e.template = 0) ∧
    (s.text = linkClose.literal → e.link = 0)

/-- `Tiles d e p ps stop`: the steps `ps` lie one behind the other from the byte `p` to the byte
`stop`, with the depths `e` before the first of them. -/
inductive Tiles (d : Document) : Depths → Nat → List (ByteRange × Step) → Nat → Prop
  | nil {e : Depths} {p : Nat} : Tiles d e p [] p
  | cons {e : Depths} {p q stop : Nat} {s : Step} {ps : List (ByteRange × Step)}
      (hs : d.StepAt e ⟨p, q⟩ s) (h : Tiles d s.depths q ps stop) :
      Tiles d e p ((⟨p, q⟩, s) :: ps) stop

theorem slice_cells {t : Text} {x y z : List Cell} (h : Cell.ofText t = x ++ (y ++ z)) :
    t.slice (Cell.chars x).byteLength (Cell.chars x ++ Cell.chars y).byteLength =
      Cell.chars y := by
  have ht := congrArg Cell.chars h
  rw [Cell.chars_ofText, Cell.chars_append, Cell.chars_append] at ht
  rw [ht, Text.byteLength_append, Text.slice_append]

theorem textOf_steps (t : Text) : Step.textOf (ofText t).steps = t := by
  rw [steps, Step.scan, Step.textOf_scanFrom, cells_ofText, Cell.chars_ofText]

theorem stepAt_of_next? {t : Text} {x cells y : List Cell} {d e : Depths} {s : Step}
    (hx : Cell.ofText t = x ++ cells) (h : Step.next? (d, cells) = some (s, (e, y))) :
    (ofText t).StepAt d ⟨(Cell.chars x).byteLength, (Cell.chars (x ++ s.cells)).byteLength⟩ s := by
  have htiles := Step.next?_tiles h
  have hcut : Cell.ofText t = (x ++ s.cells) ++ y := by rw [hx, htiles, List.append_assoc]
  have hstart := isBoundary_cut hx
  have hstop := isBoundary_cut hcut
  exact {
    nonempty := by
      rw [Cell.chars_append, Text.byteLength_append]
      exact Nat.lt_add_of_pos_right (Step.byteLength_pos_of_next? h)
    text := by
      rw [Cell.chars_append]
      exact (slice_cells (htiles ▸ hx)).symm
    lexeme := by
      obtain ⟨l, rest, hn, hl⟩ := Step.exists_lexeme_of_next? h
      rw [cellsFrom_append hx]
      exact ⟨l, rest, hn, hl.imp_right fun hl => hl.1.symm⟩
    boundaries := fun hs => by
      rw [hstart, hstop]
      exact Step.boundaries_of_next? h hs
    literal := fun hs hc => by
      obtain ⟨-, hscan⟩ := Step.scans_of_next? h fun hk => absurd hk hc
      exact (hscan.text_eq List.mem_cons_self hc hs).1
    comment := fun hs => by
      obtain ⟨-, k, -, hk, hopen, -⟩ := Step.exists_marker_of_next? h (by simp [hs])
      rw [← hopen hs]
      exact hk
    counts := Step.counts_of_next? h
    stray := fun hs hb hb' => by
      rw [hstart] at hb
      rw [hstop] at hb'
      have hafter {k : LexemeKind} (hk : k ∈ markers) (htext : s.text = k.literal) :
          (d.after k).1 = .text := by
        rw [Step.after_of_next? h (by simp [hs]) hk htext hb hb', hs]
      exact ⟨fun htext => Depths.template_eq_zero_of_after (hafter (by decide) htext),
        fun htext => Depths.link_eq_zero_of_after (hafter (by decide) htext)⟩ }

theorem tiles_scanFrom {t : Text} {x cells : List Cell} (hx : Cell.ofText t = x ++ cells)
    (d : Depths) : (ofText t).Tiles d (Cell.chars x).byteLength
      (Step.place (Cell.chars x).byteLength (Step.scanFrom d cells)) t.byteLength := by
  generalize hss : Step.scanFrom d cells = ss
  induction ss generalizing d x cells with
  | nil =>
    have ht := congrArg Cell.chars hx
    rw [Step.eq_nil_of_scanFrom hss, List.append_nil, Cell.chars_ofText] at ht
    rw [Step.place, ← ht]
    exact .nil
  | cons s ss ih =>
    obtain ⟨e, y, hn, hrest⟩ := Step.exists_of_scanFrom_cons hss
    have hcut : Cell.ofText t = (x ++ s.cells) ++ y := by
      rw [hx, Step.next?_tiles hn, List.append_assoc]
    have hlen : (Cell.chars x).byteLength + s.text.byteLength =
        (Cell.chars (x ++ s.cells)).byteLength := by
      rw [Cell.chars_append, Text.byteLength_append]
      rfl
    rw [Step.place, hlen]
    refine .cons (stepAt_of_next? hx hn) ?_
    rw [(Step.depths_of_next? hn).1]
    exact ih hcut e hrest

/-- What is open behind a step is what was opened up to it less what was closed. -/
theorem Tiles.count {d : Document} {e : Depths} {p stop : Nat} {ps : List (ByteRange × Step)}
    (h : d.Tiles e p ps stop) {us vs : List (ByteRange × Step)} {q : ByteRange × Step}
    (hps : ps = us ++ q :: vs) :
    e.template + (us ++ [q]).countP (·.2.kind = .templateOpen) =
      q.2.depths.template + (us ++ [q]).countP (·.2.kind = .templateClose) ∧
    e.link + (us ++ [q]).countP (·.2.kind = .linkOpen) =
      q.2.depths.link + (us ++ [q]).countP (·.2.kind = .linkClose) := by
  induction h generalizing us with
  | nil => simp at hps
  | @cons e p r stop s ps hs _ ih =>
    obtain ⟨htemplate, hlink⟩ := hs.counts.balance
    cases us with
    | nil =>
      obtain ⟨rfl, -⟩ := List.cons.inj hps
      simpa [List.countP_cons] using And.intro htemplate hlink
    | cons a us =>
      obtain ⟨rfl, hrest⟩ := List.cons.inj hps
      obtain ⟨htemplate', hlink'⟩ := ih hrest
      simp only [List.cons_append, List.countP_cons, decide_eq_true_eq]
      omega

theorem Tiles.exists_stepAt {d : Document} {e : Depths} {p stop : Nat}
    {ps : List (ByteRange × Step)} (h : d.Tiles e p ps stop) {us vs : List (ByteRange × Step)}
    {q : ByteRange × Step} (hps : ps = us ++ q :: vs) :
    ∃ f, d.StepAt f q.1 q.2 ∧ (f = e ∨ ∃ a ∈ us, f = a.2.depths) := by
  induction h generalizing us with
  | nil => simp at hps
  | @cons e p r stop s ps hs _ ih =>
    cases us with
    | nil =>
      obtain ⟨rfl, -⟩ := List.cons.inj hps
      exact ⟨e, hs, .inl rfl⟩
    | cons a us =>
      obtain ⟨rfl, hrest⟩ := List.cons.inj hps
      obtain ⟨f, hf, hbefore⟩ := ih hrest
      refine ⟨f, hf, .inr ?_⟩
      rcases hbefore with rfl | ⟨a, ha, rfl⟩
      · exact ⟨_, List.mem_cons_self, rfl⟩
      · exact ⟨a, List.mem_cons_of_mem _ ha, rfl⟩

/-- The steps of a scan lie one behind the other from the last boundary up to where it is to start
to the end of the text, each as `StepAt` says, and their depths are the numbers of markers opened
and not closed. -/
theorem tiles_stepsFrom (t : Text) (byte : Nat) :
    let d := ofText t
    ∃ start, d.isBoundary start = true ∧
      (∀ b, d.isBoundary b = true → (b ≤ start ↔ b ≤ byte)) ∧
      d.Tiles .zero start (d.stepsFrom byte) t.byteLength ∧
      ∀ us q vs, d.stepsFrom byte = us ++ q :: vs →
        (us ++ [q]).countP (·.2.kind = .templateOpen) =
          q.2.depths.template + (us ++ [q]).countP (·.2.kind = .templateClose) ∧
        (us ++ [q]).countP (·.2.kind = .linkOpen) =
          q.2.depths.link + (us ++ [q]).countP (·.2.kind = .linkClose) := by
  intro d
  obtain ⟨hle, hmax⟩ := d.byteAt_clusterAt_le byte
  obtain ⟨w, hw, hstart, -⟩ := exists_cellsFrom (d.isBoundary_byteAt (d.clusterAt byte))
  have htiles := tiles_scanFrom hw .zero
  rw [hstart] at htiles
  refine ⟨_, d.isBoundary_byteAt (d.clusterAt byte), fun b hb => ⟨fun h => ?_, hmax b hb⟩, htiles,
    fun us q vs hsteps => ?_⟩
  · exact Nat.le_trans h hle
  · simpa [Depths.zero] using htiles.count hsteps

end Document

end Wikitext
