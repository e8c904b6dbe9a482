import Wikitext.Character.WhiteSpace
import Wikitext.Link.Media

/-!
Alternative text. A media link has it when one of its parameters assigns one of the parameter names
that carry it; the links that do not are reported.
-/

namespace Wikitext

/-- Whether a parameter assigns one of the names: the name stands directly before `=`, with nothing
but white space before it. -/
def isAltParam (names : List Text) (param : Text) : Bool :=
  names.any fun name => name ≠ [] && (name ++ ['=']).isPrefixOf param.trimStart

structure MissingAlt where
  text : Text
  file : Text
  span : Span
  deriving DecidableEq, Repr

namespace Document

def missingAlt (d : Document) (aliases names : List Text) :
    Except AliasOverrun (List MissingAlt) := do
  let links ← d.mediaLinks aliases
  return (links.filter fun l => !l.params.any (isAltParam names)).map fun l =>
    ⟨d.text.slice l.bytes.start l.bytes.stop, l.file, l.span⟩

end Document

end Wikitext
