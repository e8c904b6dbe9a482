import Wikitext.Document
import Wikitext.Selection.Gap

/-!
Where some words occur in wikitext, one after another with a gap between each two. Of the ways to
read a gap from one place, markup comes before single characters and a longer gap before a shorter
one. Every place is read once, from the end of the text backwards.
-/

namespace Wikitext

namespace Occurrence

/-- The length of a gap and what follows it, from a place where the pieces given may begin. `later`
has, for each later place, the length from there when the gap may go on or stop. -/
def gapAt (p : Gap.Pieces) (later : List (Option Nat)) : Option Nat :=
  (p.markup.bind fun n => (later[n - 1]?.join).map (n + ·)) <|>
    if p.single then (later.head?.join).map (1 + ·) else none

/-- For each place, the length of a gap that begins there and what follows it, when `next` has for
each place the length of what may follow a gap. -/
def gapThen (ps : List Gap.Pieces) (next : List (Option Nat)) : List (Option Nat) :=
  ((ps.zip next).foldr
    (fun (p, n) (gaps, later) =>
      let gap := gapAt p later
      (gap :: gaps, (gap <|> n) :: later))
    ([], [])).1

def lengthsAt (t : Text) (ps : List Gap.Pieces) : List Text → List (Option Nat)
  | [] => []
  | [w] => t.mapSuffixes fun s => if w.isPrefixOf s then some w.length else none
  | w :: v :: ws =>
    List.zipWith (fun here gap => if here then gap.map (w.length + ·) else none)
      (t.mapSuffixes w.isPrefixOf) ((gapThen ps (lengthsAt t ps (v :: ws))).drop w.length)

def next? : Nat × Text × List (Option Nat) → Option (ByteRange × (Nat × Text × List (Option Nat)))
  | (byte, t, lengths) =>
    let skipped := (lengths.takeWhile (·.isNone)).length
    match lengths.dropWhile (·.isNone) with
    | some n :: more =>
      let start := byte + Text.byteLength (t.take skipped)
      let stop := start + Text.byteLength ((t.drop skipped).take n)
      some (⟨start, stop⟩, (stop, t.drop (skipped + n), more.drop (n - 1)))
    | _ => none

theorem next?_shrinks (s : Nat × Text × List (Option Nat)) (a : ByteRange)
    (t : Nat × Text × List (Option Nat)) (h : next? s = some (a, t)) :
    t.2.2.length < s.2.2.length := by
  obtain ⟨byte, u, lengths⟩ := s
  simp only [next?] at h
  split at h
  · rename_i n more hm
    cases h
    have hle := (List.dropWhile_sublist (l := lengths) (·.isNone)).length_le
    simp only [hm, List.length_cons, List.length_drop] at hle ⊢
    omega
  · cases h

/-- The occurrences of some words in a text, from left to right, none overlapping another. -/
def all (words : List Text) (t : Text) : List ByteRange :=
  unfold (·.2.2.length) next? next?_shrinks
    (0, t, lengthsAt t (t.mapSuffixes Gap.piecesAt) words)

end Occurrence

end Wikitext
