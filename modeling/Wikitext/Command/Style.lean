import Wikitext.Lines.Diff

/-!
Colours on a terminal, and the look of a line difference.
-/

namespace Wikitext.Command

inductive Color where
  | red
  | green
  | yellow
  | bold
  deriving DecidableEq, Repr

namespace Color

def opening : Color → Text
  | red => "\x1b[31m".toList
  | green => "\x1b[32m".toList
  | yellow => "\x1b[33m".toList
  | bold => "\x1b[1m".toList

def closing : Color → Text
  | bold => "\x1b[0m".toList
  | _ => "\x1b[39m".toList

def paint (on : Bool) (c : Color) (t : Text) : Text :=
  if on then c.opening ++ t ++ c.closing else t

end Color

def ended (line : Text) : Text :=
  if line.getLast? = some '\n' || line.getLast? = some '\r' then line else line ++ ['\n']

def diffLine (color : Bool) : Change × Text → Text
  | (.same, line) => ' ' :: ' ' :: ' ' :: ended line
  | (.removed, line) => ' ' :: ' ' :: Color.red.paint color ('-' :: ended line)
  | (.added, line) => ' ' :: ' ' :: Color.green.paint color ('+' :: ended line)

def diffText (color : Bool) (old new : Text) : Text :=
  (Text.diff old new).flatMap (diffLine color)

end Wikitext.Command
