import Wikitext.LeadingBlock

/-!
Putting the markup of an image on lines of its own, directly below the leading block of an article.
The line breaks added are those the article itself uses.
-/

namespace Wikitext

namespace Text

/-- The line break of a text: that of its first line, a line feed when it has but one line. -/
def lineBreak (t : Text) : Text :=
  let first := t.takeWhile (· ≠ '\n')
  if first.length < t.length && first.getLast? = some '\r' then ['\r', '\n'] else ['\n']

end Text

def insertImage (markup text : Text) : Text :=
  if markup = [] then text
  else if text = [] then markup
  else
    let br := text.lineBreak
    let block := LeadingBlock.ofDocument (.ofText text)
    let head := block.text
    let tail := block.rest
    if head = [] then markup ++ br ++ text
    else
      head ++ (if head.getLast? = some '\n' then [] else br) ++ markup ++
        (if tail = [] then [] else br) ++ tail

end Wikitext
