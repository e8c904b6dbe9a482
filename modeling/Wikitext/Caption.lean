import Wikitext.Character.Digit
import Wikitext.Character.Word
import Wikitext.Link.Media
import Wikitext.Rendering

/-!
The caption of a media link: its last parameter that is neither an option nor empty, as a reader
sees it. Options are named parameters, sizes, and the image keywords of the wiki.
-/

namespace Wikitext

def isNameChar (c : Char) : Bool :=
  isWord c || c = '-' || c = ' '

/-- Whether a parameter is a name and `=`. White space may surround the name; a name of spaces
counts. -/
def isNamedParam (param : Text) : Bool :=
  let name : Text := param.takeWhile (· ≠ '=')
  let core := name.trim
  name.length < param.length &&
    if core = [] then name.contains ' ' else core.all isNameChar

def isSize (t : Text) : Bool :=
  match t.reverse with
  | 'x' :: 'p' :: digits =>
    let height := digits.takeWhile isDigit
    let width := digits.dropWhile isDigit
    height ≠ [] && (width = [] || (width.head? = some 'x' && width.tail.all isDigit))
  | _ => false

/-- Whether a parameter is a size in pixels, such as `220px`, `x120px` or `220x124px`. -/
def isSizeParam (param : Text) : Bool :=
  isSize param.trim

namespace MediaLink

def isCaption (keywords : List Text) (param : Text) : Bool :=
  param.trim ≠ [] && !isNamedParam param && !isSizeParam param && !keywords.contains param.trim

def captionParam? (keywords : List Text) (params : List Text) : Option Text :=
  params.reverse.find? (isCaption keywords)

def captionOf? (keywords : List Text) (params : List Text) : Option Text :=
  ((captionParam? keywords params).map displayText).filter (· ≠ [])

def caption? (keywords : List Text) (l : MediaLink) : Option Text :=
  captionOf? keywords l.params

end MediaLink

end Wikitext
