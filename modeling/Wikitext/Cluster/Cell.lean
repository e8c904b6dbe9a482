import Wikitext.Cluster.BreakClass
import Wikitext.Text
import Wikitext.Unfold

/-!
Extended grapheme clusters. What a cluster may still take in depends on how it ends so far, its
`Tail`, and on the next character alone; so every cluster is read as if the text began with it.
-/

namespace Wikitext

/-- How a cluster ends: all that the next character needs to know of it. -/
inductive Tail where
  | cr
  | control
  | prepend
  | leadingJamo
  | vowelJamo
  | trailingJamo
  /-- One regional indicator that still lacks its partner. -/
  | halfFlag
  | conjunct (linked : Bool)
  | pictograph (joined : Bool)
  | other
  deriving DecidableEq, Repr

namespace Tail

def start : BreakClass → Tail
  | .cr => .cr
  | .lf | .control => .control
  | .prepend => .prepend
  | .leadingJamo => .leadingJamo
  | .vowelJamo | .openSyllable => .vowelJamo
  | .trailingJamo | .closedSyllable => .trailingJamo
  | .regionalIndicator => .halfFlag
  | .consonant => .conjunct false
  | .pictograph => .pictograph false
  | _ => .other

def extended : Tail → BreakClass → Tail
  | .conjunct _, .linker => .conjunct true
  | .conjunct linked, .extend => .conjunct linked
  | .conjunct linked, .joiner => .conjunct linked
  | .pictograph false, .joiner => .pictograph true
  | .pictograph false, .extend => .pictograph false
  | .pictograph false, .linker => .pictograph false
  | .pictograph false, .nonJoiner => .pictograph false
  | _, _ => .other

/-- The tail after a character joins the cluster; `none` when it begins a cluster of its own. -/
def next? : Tail → BreakClass → Option Tail
  | .cr, .lf => some .control
  | .cr, _ => none
  | .control, _ => none
  | _, .cr => none
  | _, .lf => none
  | _, .control => none
  | t, .extend => some (t.extended .extend)
  | t, .linker => some (t.extended .linker)
  | t, .nonJoiner => some (t.extended .nonJoiner)
  | t, .joiner => some (t.extended .joiner)
  | _, .spacingMark => some .other
  | .prepend, k => some (start k)
  | .leadingJamo, .leadingJamo => some .leadingJamo
  | .leadingJamo, .vowelJamo => some .vowelJamo
  | .leadingJamo, .openSyllable => some .vowelJamo
  | .leadingJamo, .closedSyllable => some .trailingJamo
  | .vowelJamo, .vowelJamo => some .vowelJamo
  | .vowelJamo, .trailingJamo => some .trailingJamo
  | .trailingJamo, .trailingJamo => some .trailingJamo
  | .halfFlag, .regionalIndicator => some .other
  | .conjunct true, .consonant => some (.conjunct false)
  | .pictograph true, .pictograph => some (.pictograph false)
  | _, _ => none

end Tail

/-- A character in its place: `opens` says that a cluster begins with it. -/
structure Cell where
  char : Char
  opens : Bool
  deriving DecidableEq, Repr

namespace Cell

def next? : Tail × Text → Option (Cell × (Tail × Text))
  | (_, []) => none
  | (tail, c :: r) =>
    match tail.next? (.of c) with
    | some t => some (⟨c, false⟩, (t, r))
    | none => some (⟨c, true⟩, (.start (.of c), r))

theorem next?_shrinks (s : Tail × Text) (a : Cell) (t : Tail × Text) (h : next? s = some (a, t)) :
    t.2.length < s.2.length := by
  obtain ⟨tail, _ | ⟨c, r⟩⟩ := s
  · simp [next?] at h
  · simp only [next?] at h
    split at h <;> · cases h; simp

def ofTextAfter (tail : Tail) (t : Text) : List Cell :=
  unfold (·.2.length) next? next?_shrinks (tail, t)

/-- The cells of a text. A text begins like what follows a line break: with a new cluster. -/
def ofText (t : Text) : List Cell :=
  ofTextAfter .control t

@[simp]
theorem ofTextAfter_nil (tail : Tail) : ofTextAfter tail [] = [] := by
  rw [ofTextAfter, unfold_eq, next?]

theorem ofTextAfter_cons (tail : Tail) (c : Char) (r : Text) :
    ofTextAfter tail (c :: r) =
      match tail.next? (.of c) with
      | some t => ⟨c, false⟩ :: ofTextAfter t r
      | none => ⟨c, true⟩ :: ofTextAfter (.start (.of c)) r := by
  rw [ofTextAfter, unfold_eq]
  simp only [next?]
  split <;> rename_i h <;> split at h <;> simp_all [ofTextAfter]

def chars (cells : List Cell) : Text :=
  cells.map (·.char)

theorem chars_ofTextAfter (tail : Tail) (t : Text) : chars (ofTextAfter tail t) = t := by
  induction t generalizing tail with
  | nil => simp [chars]
  | cons c r ih =>
    rw [ofTextAfter_cons]
    split <;> simpa [chars] using ih _

@[simp]
theorem chars_ofText (t : Text) : chars (ofText t) = t :=
  chars_ofTextAfter .control t

def beginsWith : List Cell → Text → Bool
  | _, [] => true
  | [], _ :: _ => false
  | a :: r, c :: p => a.char = c && beginsWith r p

def atBoundary : List Cell → Bool
  | [] => true
  | a :: _ => a.opens

end Cell

end Wikitext
