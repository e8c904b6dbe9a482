import Wikitext.Marker.Step

/-!
The outermost links of a document: from a `[[` with no link open before it to the `]]` that leaves
none open. A link that is never closed is none, and nothing after it can be outermost.
-/

namespace Wikitext

/-- An outermost link: its first step, those between, and its last. -/
structure OuterLink where
  start : Nat
  opening : Step
  inside : List Step
  closing : Step
  deriving DecidableEq, Repr

namespace OuterLink

def steps (l : OuterLink) : List Step :=
  l.opening :: l.inside ++ [l.closing]

def text (l : OuterLink) : Text :=
  l.steps.flatMap Step.text

def bytes (l : OuterLink) : ByteRange :=
  ⟨l.start, l.start + l.text.byteLength⟩

def separates (template : Nat) (s : Step) : Bool :=
  s.kind = .pipe && s.depths.link = 1 && s.depths.template = template

/-- Some steps cut at those that satisfy `cut`: what comes before the first of them, and what
follows each. -/
def splitAt (cut : Step → Bool) (ss : List Step) : List Step × List (List Step) :=
  ss.foldr (fun s (first, more) => if cut s then ([], first :: more) else (s :: first, more))
    ([], [])

/-- What stands between `[[` and the first separator. -/
def title (l : OuterLink) : Text :=
  (splitAt (separates l.opening.depths.template) l.inside).1.flatMap Step.text

def params (l : OuterLink) : List Text :=
  (splitAt (separates l.opening.depths.template) l.inside).2.map (·.flatMap Step.text)

def opens (s : Step) : Bool :=
  s.kind = .linkOpen && s.depths.link = 1

def closes (s : Step) : Bool :=
  s.kind = .linkClose && s.depths.link = 0

def next? : Nat × List Step → Option (OuterLink × (Nat × List Step))
  | (byte, ss) =>
    match ss.dropWhile (!opens ·) with
    | [] => none
    | o :: after =>
      match after.dropWhile (!closes ·) with
      | [] => none
      | c :: rest =>
        let start := byte + Text.byteLength ((ss.takeWhile (!opens ·)).flatMap Step.text)
        let link := ⟨start, o, after.takeWhile (!closes ·), c⟩
        some (link, (link.bytes.stop, rest))

theorem next?_shrinks (s : Nat × List Step) (a : OuterLink) (t : Nat × List Step)
    (h : next? s = some (a, t)) : t.2.length < s.2.length := by
  obtain ⟨byte, ss⟩ := s
  simp only [next?] at h
  split at h
  · cases h
  · rename_i o after ho
    split at h
    · cases h
    · rename_i c rest hc
      cases h
      have hs := (List.dropWhile_sublist (l := ss) (!opens ·)).length_le
      have ha := (List.dropWhile_sublist (l := after) (!closes ·)).length_le
      simp only [ho, hc, List.length_cons] at hs ha ⊢
      omega

def ofSteps (byte : Nat) (ss : List Step) : List OuterLink :=
  unfold (·.2.length) next? next?_shrinks (byte, ss)

def render (title : Text) (params : List Text) : Text :=
  ['[', '['] ++ title ++ params.flatMap ('|' :: ·) ++ [']', ']']

end OuterLink

namespace Document

def outerLinks (d : Document) : List OuterLink :=
  OuterLink.ofSteps 0 d.steps

end Document

end Wikitext
