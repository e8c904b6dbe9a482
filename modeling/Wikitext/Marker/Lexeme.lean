import Wikitext.Cluster.Cell

/-!
The lexemes of wikitext: its markers, and text between them. At every place the longest lexeme is
taken. A marker counts only when it begins and ends on a cluster boundary; one that shares a cluster
with a neighbour is text.
-/

namespace Wikitext

inductive LexemeKind where
  | commentOpen
  | commentClose
  | templateOpen
  | templateClose
  | linkOpen
  | linkClose
  | pipe
  | newline
  | text
  deriving DecidableEq, Repr

namespace LexemeKind

def literal : LexemeKind → Text
  | commentOpen => ['<', '!', '-', '-']
  | commentClose => ['-', '-', '>']
  | templateOpen => ['{', '{']
  | templateClose => ['}', '}']
  | linkOpen => ['[', '[']
  | linkClose => [']', ']']
  | pipe => ['|']
  | newline => ['\n']
  | text => []

/-- Every kind but text. No literal of one begins another's. -/
def markers : List LexemeKind :=
  [commentOpen, commentClose, templateOpen, templateClose, linkOpen, linkClose, pipe, newline]

end LexemeKind

def isMarkerChar (c : Char) : Bool :=
  c = '<' || c = '-' || c = '{' || c = '}' || c = '[' || c = ']' || c = '|' || c = '\n'

structure Lexeme where
  kind : LexemeKind
  cells : List Cell
  deriving DecidableEq, Repr

namespace Lexeme

def kindBefore (kind : LexemeKind) (cells rest : List Cell) : LexemeKind :=
  if Cell.atBoundary cells && Cell.atBoundary rest then kind else .text

def next? : List Cell → Option (Lexeme × List Cell)
  | [] => none
  | a :: r =>
    if isMarkerChar a.char then
      match LexemeKind.markers.find? (Cell.beginsWith (a :: r) ·.literal) with
      | some kind =>
        let n := kind.literal.length - 1
        some (⟨kindBefore kind (a :: r.take n) (r.drop n), a :: r.take n⟩, r.drop n)
      | none => some (⟨.text, [a]⟩, r)
    else
      some (⟨.text, a :: r.takeWhile (!isMarkerChar ·.char)⟩, r.dropWhile (!isMarkerChar ·.char))

theorem next?_shrinks (s : List Cell) (a : Lexeme) (t : List Cell) (h : next? s = some (a, t)) :
    t.length < s.length := by
  cases s with
  | nil => simp [next?] at h
  | cons c r =>
    simp only [next?] at h
    split at h
    · split at h <;> cases h <;> simp only [List.length_drop, List.length_cons] <;> omega
    · cases h
      have := (List.dropWhile_sublist (l := r) (!isMarkerChar ·.char)).length_le
      simp only [List.length_cons]
      omega

theorem next?_tiles {s : List Cell} {a : Lexeme} {t : List Cell} (h : next? s = some (a, t)) :
    a.cells ++ t = s := by
  cases s with
  | nil => simp [next?] at h
  | cons c r =>
    simp only [next?] at h
    split at h
    · split at h <;> cases h <;> simp
    · cases h
      simp

theorem next?_cells_ne_nil {s : List Cell} {a : Lexeme} {t : List Cell}
    (h : next? s = some (a, t)) : a.cells ≠ [] := by
  rintro he
  have hl := next?_shrinks s a t h
  rw [← next?_tiles h, he] at hl
  simp at hl

def ofCells (cells : List Cell) : List Lexeme :=
  unfold List.length next? next?_shrinks cells

theorem ofCells_eq (cells : List Cell) :
    ofCells cells =
      match next? cells with
      | none => []
      | some (a, t) => a :: ofCells t := by
  rw [ofCells, unfold_eq]
  cases next? cells <;> rfl

/-- The cells of the lexemes up to the first of a kind; all cells when there is none of it. -/
def cellsUntil (kind : LexemeKind) (cells : List Cell) : List Cell :=
  match unfoldUntil? List.length next? next?_shrinks (·.kind = kind) cells with
  | some ls => ls.flatMap (·.cells)
  | none => cells

end Lexeme

end Wikitext
