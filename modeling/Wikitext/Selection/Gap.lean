import Wikitext.Character.Word
import Wikitext.Text

/-!
What wikitext may put between two words that are neighbours on the page: a link target with its
separator, a template without braces inside, a tag, or characters that belong to no word.
-/

namespace Wikitext

namespace Gap

/-- The length of the link target with which a text begins: `[[`, characters other than `]` and
`|`, at least one, and `|`. -/
def target? : Text → Option Nat
  | '[' :: '[' :: r =>
    let inside := r.takeWhile fun c => c ≠ ']' && c ≠ '|'
    if inside ≠ [] && (r.drop inside.length).head? = some '|' then some (inside.length + 3)
    else none
  | _ => none

def template? : Text → Option Nat
  | '{' :: '{' :: r =>
    let inside := r.takeWhile (· ≠ '}')
    if ['}', '}'].isPrefixOf (r.drop inside.length) then some (inside.length + 4) else none
  | _ => none

def tag? : Text → Option Nat
  | '<' :: r =>
    let inside := r.takeWhile (· ≠ '>')
    if inside.length < r.length then some (inside.length + 2) else none
  | _ => none

def markup? (t : Text) : Option Nat :=
  target? t <|> template? t <|> tag? t

/-- The pieces of a gap that may begin at one place: one of markup, of some length, and a single
character that belongs to no word. -/
structure Pieces where
  markup : Option Nat
  single : Bool
  deriving DecidableEq, Repr

def piecesAt : Text → Pieces
  | [] => ⟨none, false⟩
  | c :: r => ⟨markup? (c :: r), !isWord c⟩

end Gap

end Wikitext
