import Wikitext.Document
import Wikitext.Marker.Lexeme

/-!
A document as a sequence of steps. Each step carries how many templates and links are open after
it; the two are counted apart from each other. A comment is one step, so nothing inside it counts,
and so is everything after a comment that is never closed. Depths are plain numbers: no depth of
nesting needs a deeper recursion.
-/

namespace Wikitext

inductive StepKind where
  | templateOpen
  | templateClose
  | linkOpen
  | linkClose
  /-- A comment with its ends, or all the rest when it has no end. -/
  | comment
  | pipe
  | newline
  /-- Anything else, closers with nothing to close among it. -/
  | text
  deriving DecidableEq, Repr

structure Depths where
  template : Nat
  link : Nat
  deriving DecidableEq, Repr

namespace Depths

def zero : Depths := ⟨0, 0⟩

def after (d : Depths) : LexemeKind → StepKind × Depths
  | .templateOpen => (.templateOpen, ⟨d.template + 1, d.link⟩)
  | .linkOpen => (.linkOpen, ⟨d.template, d.link + 1⟩)
  | .templateClose =>
    if d.template = 0 then (.text, d) else (.templateClose, ⟨d.template - 1, d.link⟩)
  | .linkClose =>
    if d.link = 0 then (.text, d) else (.linkClose, ⟨d.template, d.link - 1⟩)
  | .pipe => (.pipe, d)
  | .newline => (.newline, d)
  | .commentOpen | .commentClose | .text => (.text, d)

end Depths

structure Step where
  kind : StepKind
  cells : List Cell
  depths : Depths
  deriving DecidableEq, Repr

namespace Step

def text (s : Step) : Text :=
  Cell.chars s.cells

/-- The next step, and the depths and cells that it leaves. A comment goes up to its end, or to the
end of the cells. -/
def next? : Depths × List Cell → Option (Step × (Depths × List Cell))
  | (d, cells) =>
    match Lexeme.next? cells with
    | none => none
    | some (l, rest) =>
      if l.kind = .commentOpen then
        let body := Lexeme.cellsUntil .commentClose rest
        some (⟨.comment, l.cells ++ body, d⟩, (d, rest.drop body.length))
      else
        let (kind, d') := d.after l.kind
        some (⟨kind, l.cells, d'⟩, (d', rest))

theorem next?_shrinks (s : Depths × List Cell) (a : Step) (t : Depths × List Cell)
    (h : next? s = some (a, t)) : t.2.length < s.2.length := by
  obtain ⟨d, cells⟩ := s
  simp only [next?] at h
  split at h
  · cases h
  · rename_i l rest hl
    have := Lexeme.next?_shrinks cells l rest hl
    split at h <;> cases h
    · simp only [List.length_drop]
      omega
    · exact this

theorem next?_cells_ne_nil {s : Depths × List Cell} {a : Step} {t : Depths × List Cell}
    (h : next? s = some (a, t)) : a.cells ≠ [] := by
  obtain ⟨d, cells⟩ := s
  simp only [next?] at h
  split at h
  · cases h
  · rename_i l rest hl
    have := Lexeme.next?_cells_ne_nil hl
    split at h <;> cases h <;> simp [this]

def scanFrom (d : Depths) (cells : List Cell) : List Step :=
  unfold (·.2.length) next? next?_shrinks (d, cells)

theorem scanFrom_eq (d : Depths) (cells : List Cell) :
    scanFrom d cells =
      match next? (d, cells) with
      | none => []
      | some (a, t) => a :: scanFrom t.1 t.2 := by
  rw [scanFrom, unfold_eq]
  cases next? (d, cells) <;> rfl

def scanUntil? (stop : Step → Bool) (d : Depths) (cells : List Cell) : Option (List Step) :=
  unfoldUntil? (·.2.length) next? next?_shrinks stop (d, cells)

def scan (cells : List Cell) : List Step :=
  scanFrom .zero cells

/-- The steps with the bytes they cover, the first of which is `start`. -/
def place (start : Nat) : List Step → List (ByteRange × Step)
  | [] => []
  | s :: ss =>
    (⟨start, start + s.text.byteLength⟩, s) :: place (start + s.text.byteLength) ss

end Step

namespace Document

def steps (d : Document) : List Step :=
  Step.scan d.cells

def stepsFrom (d : Document) (byte : Nat) : List (ByteRange × Step) :=
  let start := d.byteAt (d.clusterAt byte)
  Step.place start (Step.scan (d.cellsFrom start))

end Document

end Wikitext
