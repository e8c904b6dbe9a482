import Wikitext.Text

/-!
The characters with the Unicode property White_Space, and the ways text is cut at them.
-/

namespace Wikitext

def isWhite (c : Char) : Bool :=
  let n := c.toNat
  (9 ≤ n && n ≤ 13) || n = 0x20 || n = 0x85 || n = 0xA0 || n = 0x1680 ||
    (0x2000 ≤ n && n ≤ 0x200A) || n = 0x2028 || n = 0x2029 || n = 0x202F || n = 0x205F ||
    n = 0x3000

namespace Text

def trimStart (t : Text) : Text :=
  t.dropWhile isWhite

def trimEnd (t : Text) : Text :=
  (t.reverse.dropWhile isWhite).reverse

def trim (t : Text) : Text :=
  t.trimStart.trimEnd

def words (t : Text) : List Text :=
  t.runs (!isWhite ·)

end Text

end Wikitext
