import Wikitext.Character.WhiteSpace
import Wikitext.Selection.Context
import Wikitext.Selection.Occurrence

/-!
Finding text that was selected on a rendered page in the wikitext of the article. Its words may have
markup between them; of several places the one wins whose surroundings agree best with those of the
selection, and of equals the first.
-/

namespace Wikitext

structure Selection where
  before : Text
  target : Text
  after : Text
  deriving DecidableEq, Repr

namespace Selection

/-- The number of clusters on either side of a candidate that are searched for context. -/
def window : Nat := 200

/-- The most words of a target that are looked for. It stands for a limit on the size of the pattern
they make, which depends on the lengths of the words too. -/
def maxWords : Nat := 200

def textBefore (d : Document) (r : ByteRange) : Text :=
  d.text.slice (d.byteAt (d.clusterAt r.start - window)) r.start

def textAfter (d : Document) (r : ByteRange) : Text :=
  d.text.slice r.stop (d.byteAt (d.clusterAt r.stop + window))

def score (d : Document) (before after : List Text) (r : ByteRange) : Nat :=
  Context.agreement before (Context.wordsBefore (textBefore d r)) +
    Context.agreement after (Context.wordsAfter (textAfter d r))

def best? (score : ByteRange → Nat) : List ByteRange → Option ByteRange
  | [] => none
  | r :: rs =>
    some (rs.foldl
      (fun (best, top) c => let n := score c; if top < n then (c, n) else (best, top))
      (r, score r)).1

def find? (s : Selection) (d : Document) : Option ByteRange :=
  let words := s.target.words
  if words = [] || maxWords < words.length then none
  else
    let before := Context.wordsBefore s.before
    let after := Context.wordsAfter s.after
    best? (score d before after) (Occurrence.all words d.text)

def locate? (s : Selection) (d : Document) : Option Span :=
  (s.find? d).map d.spanOf

end Selection

end Wikitext
