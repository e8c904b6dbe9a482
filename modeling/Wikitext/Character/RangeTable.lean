/-!
Sets of characters given by a table of code point ranges in increasing order, looked up by halving.
-/

namespace Wikitext

/-- Ranges of code points, both ends included, in increasing order and apart from each other. -/
abbrev RangeTable := Array (Nat × Nat)

namespace RangeTable

def containsBetween (table : RangeTable) (n lo hi : Nat) : Bool :=
  if lo < hi then
    match table[(lo + hi) / 2]? with
    | none => false
    | some (first, last) =>
      if n < first then containsBetween table n lo ((lo + hi) / 2)
      else if last < n then containsBetween table n ((lo + hi) / 2 + 1) hi
      else true
  else false
  termination_by hi - lo

def contains (table : RangeTable) (n : Nat) : Bool :=
  table.containsBetween n 0 table.size

end RangeTable

end Wikitext
