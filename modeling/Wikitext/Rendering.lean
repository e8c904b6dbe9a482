import Wikitext.Character.WhiteSpace
import Wikitext.Marker.Step

/-!
Wikitext as a reader sees it. Templates and comments vanish, a link leaves its label, or its target
when it has no label, tags are dropped, and white space at the ends goes.
-/

namespace Wikitext

/-- The text read so far: that of the innermost open link, then that around it, outwards. The text
outside all links comes last. -/
structure Reading where
  current : Text
  around : List Text
  deriving DecidableEq, Repr

namespace Reading

def empty : Reading := ⟨[], []⟩

def write (r : Reading) (t : Text) : Reading :=
  { r with current := r.current ++ t }

/-- A step outside all templates. A separator in a link discards what the link held so far. -/
def readOutside (r : Reading) (s : Step) : Reading :=
  match s.kind with
  | .linkOpen => ⟨[], r.current :: r.around⟩
  | .linkClose =>
    match r.around with
    | [] => r
    | outer :: more => ⟨outer ++ r.current, more⟩
  | .pipe => if r.around = [] then r.write s.text else { r with current := [] }
  | .newline | .text => r.write s.text
  | .comment | .templateOpen | .templateClose => r

def read (r : Reading) (s : Step) : Reading :=
  if 0 < s.depths.template then r else r.readOutside s

def text (r : Reading) : Text :=
  (r.current :: r.around).reverse.flatten

end Reading

def afterTag? (t : Text) : Option Text :=
  match t.dropWhile (· ≠ '>') with
  | [] => none
  | _ :: rest => some rest

theorem afterTag?_shrinks {t rest : Text} (h : afterTag? t = some rest) :
    rest.length < t.length := by
  have hle := (List.dropWhile_sublist (l := t) (· ≠ '>')).length_le
  simp only [afterTag?] at h
  split at h
  · cases h
  · rename_i c r hr
    cases h
    simp only [hr, List.length_cons] at hle
    omega

def nextTagless? : Text → Option (Text × Text)
  | [] => none
  | c :: r =>
    if c = '<' then
      match afterTag? r with
      | some rest => some ([], rest)
      | none => some (c :: r, [])
    else some (c :: r.takeWhile (· ≠ '<'), r.dropWhile (· ≠ '<'))

theorem nextTagless?_shrinks (s : Text) (a : Text) (t : Text) (h : nextTagless? s = some (a, t)) :
    t.length < s.length := by
  cases s with
  | nil => cases h
  | cons c r =>
    simp only [nextTagless?] at h
    split at h
    · split at h <;> cases h
      · rename_i hr
        have := afterTag?_shrinks hr
        simp only [List.length_cons]
        omega
      · simp
    · cases h
      have := (List.dropWhile_sublist (l := r) (· ≠ '<')).length_le
      simp only [List.length_cons]
      omega

/-- The text without its tags. A tag runs from a `<` to the next `>`; without one it is none. -/
def stripTags (t : Text) : Text :=
  (unfold List.length nextTagless? nextTagless?_shrinks t).flatten

def displayText (t : Text) : Text :=
  (stripTags ((Document.ofText t).steps.foldl Reading.read .empty).text).trim

end Wikitext
