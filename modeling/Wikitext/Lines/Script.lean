import Std.Data.HashMap

/-!
A shortest way to turn one list into another by removing and adding items. The search goes from both
ends at once, in the order of the number of changes, until the two meet; the lists are then split
there and each half is treated alike.
-/

namespace Wikitext

inductive Change where
  | same
  | removed
  | added
  deriving DecidableEq, Repr

namespace Script

variable {α : Type} [BEq α]

def commonPrefix : List α → List α → Nat
  | a :: as, b :: bs => if a == b then commonPrefix as bs + 1 else 0
  | _, _ => 0

/-- For each diagonal, how far along the old list the search has come on it. -/
abbrev Frontier := Std.HashMap Int Nat

/-- Where on a diagonal a path with `d` changes can start, given the frontier of paths with one
change less. -/
def stepTo (v : Frontier) (d k : Int) : Nat :=
  if k = -d || (k ≠ d && v.getD (k - 1) 0 < v.getD (k + 1) 0) then v.getD (k + 1) 0
  else v.getD (k - 1) 0 + 1

def slideTo (old new : List α) (x : Nat) (k : Int) : Nat :=
  x + commonPrefix (old.drop x) (new.drop ((x : Int) - k).toNat)

def diagonals (d : Nat) : List Int :=
  (List.range (d + 1)).map fun i : Nat => (d : Int) - 2 * i

/-- The frontier of paths with `d` changes from one end; ends with an answer of `meets?` as soon as
it has one for the start, the end and the diagonal of a path. -/
def advance (old new : List α) (d : Nat) (meets? : Nat → Nat → Int → Option (Nat × Nat))
    (v : Frontier) : Except (Nat × Nat) Frontier :=
  (diagonals d).foldlM (fun v k =>
    let x := stepTo v d k
    let x' := slideTo old new x k
    match meets? x x' k with
    | some place => .error place
    | none => .ok (v.insert k x')) v

def round (old new : List α) (vs : Frontier × Frontier) (d : Nat) :
    Except (Nat × Nat) (Frontier × Frontier) := do
  let n := old.length
  let m := new.length
  let delta : Int := (n : Int) - m
  let odd := delta % 2 ≠ 0
  let forward ← advance old new d (fun x x' k =>
    if odd && (k - delta).natAbs < d && n ≤ x' + vs.2.getD (delta - k) 0 then
      some (x, ((x : Int) - k).toNat)
    else none) vs.1
  let backward ← advance old.reverse new.reverse d (fun _ x' k =>
    if !odd && (k - delta).natAbs ≤ d && n ≤ x' + forward.getD (delta - k) 0 then
      some (n - x', m - ((x' : Int) - k).toNat)
    else none) vs.2
  return (forward, backward)

def middle? (old new : List α) : Option (Nat × Nat) :=
  match (List.range ((old.length + new.length + 1) / 2 + 1)).foldlM (round old new) (∅, ∅) with
  | .error place => some place
  | .ok _ => none

def all (c : Change) (as : List α) : List (Change × α) :=
  as.map fun a => (c, a)

/-- Both lists without their common ends: the common prefix, what is left of each, and the common
suffix. -/
def trim (old new : List α) : List α × List α × List α × List α :=
  let p := commonPrefix old new
  let old' := old.drop p
  let new' := new.drop p
  let s := commonPrefix old'.reverse new'.reverse
  (old.take p, old'.take (old'.length - s), new'.take (new'.length - s),
    old'.drop (old'.length - s))

def between (old new : List α) : List (Change × α) :=
  match trim old new with
  | (before, old', new', after) =>
    let replaced := all .removed old' ++ all .added new'
    let inner :=
      if old'.isEmpty || new'.isEmpty then replaced
      else
        match middle? old' new' with
        | none => replaced
        | some (x, y) =>
          if _h : (old'.take x).length + (new'.take y).length < old.length + new.length ∧
              (old'.drop x).length + (new'.drop y).length < old.length + new.length then
            between (old'.take x) (new'.take y) ++ between (old'.drop x) (new'.drop y)
          else replaced
    all .same before ++ inner ++ all .same after
  termination_by old.length + new.length
  decreasing_by
    · exact _h.1
    · exact _h.2

end Script

end Wikitext
