import Wikitext.Character.WhiteSpace
import Wikitext.Marker.Step

/-!
The leading block of an article: the templates and comments it opens with. White space may stand
before each of them, and the line breaks directly after each belong to the block. Anything else, and
a template that is never closed, ends it.
-/

namespace Wikitext

/-- One template or comment of the leading block, with the white space around it. -/
structure LeadingItem where
  blank : Text
  body : Text
  newlines : Text
  deriving DecidableEq, Repr

namespace LeadingItem

def text (i : LeadingItem) : Text :=
  i.blank ++ i.body ++ i.newlines

def countNewlinesFrom (n : Nat) : List Cell → Nat
  | [] => n
  | [a] => if a.char = '\n' then n + 1 else n
  | a :: b :: r =>
    if a.char = '\n' then countNewlinesFrom (n + 1) (b :: r)
    else if a.char = '\r' && b.char = '\n' then countNewlinesFrom (n + 2) r
    else n

/-- The number of cells in the line breaks with which some cells begin: line feeds, each with a
carriage return before it or without. -/
def countNewlines (cells : List Cell) : Nat :=
  countNewlinesFrom 0 cells

def closes (s : Step) : Bool :=
  s.kind = .templateClose && s.depths.template = 0

def bodySteps? (cells : List Cell) : Option (List Step) :=
  match Step.next? (.zero, cells) with
  | none => none
  | some (s, (d, rest)) =>
    match s.kind with
    | .comment => some [s]
    | .templateOpen => (Step.scanUntil? closes d rest).map (s :: ·)
    | _ => none

theorem bodySteps?_cells_ne_nil {cells : List Cell} {body : List Step}
    (h : bodySteps? cells = some body) : body.flatMap (·.cells) ≠ [] := by
  simp only [bodySteps?] at h
  split at h
  · cases h
  · rename_i s d rest hs
    have hne := Step.next?_cells_ne_nil hs
    split at h
    · cases h
      simpa using hne
    · obtain ⟨more, -, rfl⟩ := Option.map_eq_some_iff.1 h
      simp [hne]
    · cases h

theorem bodySteps?_nil : bodySteps? [] = none := rfl

def next? (cells : List Cell) : Option (LeadingItem × List Cell) :=
  let blank := cells.takeWhile (isWhite ·.char)
  let rest := cells.dropWhile (isWhite ·.char)
  match bodySteps? rest with
  | none => none
  | some steps =>
    let body := steps.flatMap (·.cells)
    let after := rest.drop body.length
    let n := countNewlines after
    some (⟨Cell.chars blank, Cell.chars body, Cell.chars (after.take n)⟩, after.drop n)

theorem next?_shrinks (s : List Cell) (a : LeadingItem) (t : List Cell)
    (h : next? s = some (a, t)) : t.length < s.length := by
  simp only [next?] at h
  split at h
  · cases h
  · rename_i steps hb
    cases h
    have hbody := List.length_pos_iff.2 (bodySteps?_cells_ne_nil hb)
    have hrest : 0 < (s.dropWhile fun c => isWhite c.char).length := by
      rw [List.length_pos_iff]
      rintro he
      simp [he, bodySteps?_nil] at hb
    have hle := (List.dropWhile_sublist (l := s) fun c => isWhite c.char).length_le
    simp only [List.length_drop]
    omega

end LeadingItem

structure LeadingBlock where
  items : List LeadingItem
  rest : Text
  deriving DecidableEq, Repr

namespace LeadingBlock

def itemsOf (cells : List Cell) : List LeadingItem :=
  unfold List.length LeadingItem.next? LeadingItem.next?_shrinks cells

def text (b : LeadingBlock) : Text :=
  b.items.flatMap LeadingItem.text

def ofDocument (d : Document) : LeadingBlock :=
  let items := itemsOf d.cells
  ⟨items, d.text.drop (items.flatMap LeadingItem.text).length⟩

def bodyRanges (start : Nat) : List LeadingItem → List ByteRange
  | [] => []
  | i :: is =>
    let first := start + i.blank.byteLength
    ⟨first, first + i.body.byteLength⟩ :: bodyRanges (start + i.text.byteLength) is

end LeadingBlock

namespace Document

/-- The cluster just past the leading block, 0 when there is none. -/
def leadingEnd (d : Document) : Nat :=
  d.clusterAt (LeadingBlock.ofDocument d).text.byteLength

def leadingSpans (d : Document) : List (Nat × Nat) :=
  (LeadingBlock.bodyRanges 0 (LeadingBlock.ofDocument d).items).map
    fun r => (d.clusterAt r.start, d.clusterAt r.stop)

end Document

end Wikitext
