import Wikitext.Lines.Script
import Wikitext.Text

/-!
The difference of two texts line by line. A line keeps its line break. Of lines that are replaced
the removed ones come first; added lines that could stand in several places stand in the last.
-/

namespace Wikitext

namespace Text

/-- The lines of a text, each with its line break. `line` is what of the current line was read, the
latest first, and so is `found`. -/
def linesFrom (line : Text) (found : List Text) : Text → List Text
  | [] => (if line = [] then found else line.reverse :: found).reverse
  | '\r' :: '\n' :: r => linesFrom [] (('\n' :: '\r' :: line).reverse :: found) r
  | c :: r =>
    if c = '\n' || c = '\r' then linesFrom [] ((c :: line).reverse :: found) r
    else linesFrom (c :: line) found r

def lines (t : Text) : List Text :=
  linesFrom [] [] t

end Text

namespace Script

/-- A script in which each run of added items comes as late as it can. `run` holds the added items
that are still to be placed. -/
def delay {α : Type} [BEq α] (run : List α) : List (Change × α) → List (Change × α)
  | [] => all .added run
  | (.added, a) :: more => delay (run ++ [a]) more
  | (.removed, a) :: more => (.removed, a) :: delay run more
  | (.same, a) :: more =>
    match run with
    | b :: rest =>
      if b == a then (.same, b) :: delay (rest ++ [a]) more
      else all .added run ++ (.same, a) :: delay [] more
    | [] => (.same, a) :: delay [] more

end Script

namespace Text

def diff (old new : Text) : List (Change × Text) :=
  Script.delay [] (Script.between old.lines new.lines)

end Text

end Wikitext
