import Wikitext.Character.Word
import Wikitext.Text

/-!
How well the words around a place in wikitext agree with the words around a selection on the page.
Parentheticals and templates are left out of the comparison, and only words count.
-/

namespace Wikitext

namespace Context

/-- What follows the `)` that ends a parenthetical, given the text after its `(`; it ends on the
same line. -/
def afterParenthetical? (t : Text) : Option Text :=
  match t.dropWhile fun c => c ≠ ')' && c ≠ '\n' with
  | ')' :: rest => some rest
  | _ => none

theorem afterParenthetical?_shrinks {t rest : Text} (h : afterParenthetical? t = some rest) :
    rest.length < t.length := by
  have hle := (List.dropWhile_sublist (l := t) fun c => c ≠ ')' && c ≠ '\n').length_le
  simp only [afterParenthetical?] at h
  split at h
  · rename_i r hr
    cases h
    simp only [hr, List.length_cons] at hle
    omega
  · cases h

def dropParentheticalsOnto (kept : Text) (t : Text) : Text :=
  match t with
  | [] => kept.reverse
  | c :: r =>
    if c = '(' then
      match h : afterParenthetical? r with
      | some rest =>
        have := afterParenthetical?_shrinks h
        dropParentheticalsOnto kept rest
      | none => dropParentheticalsOnto (c :: kept) r
    else dropParentheticalsOnto (c :: kept) r
  termination_by t.length

def dropParentheticals (t : Text) : Text :=
  dropParentheticalsOnto [] t

def afterLastClose? (line : Text) : Option Text :=
  (Text.breakOn? line.reverse ['}', '}']).map (·.1.reverse)

/-- A line without what lies between its first `{{` and its last `}}`, braces included. -/
def dropLineTemplate (line : Text) : Text :=
  match line.breakOn? ['{', '{'] with
  | some (before, inside) =>
    match afterLastClose? inside with
    | some after => before ++ after
    | none => line
  | none => line

def dropTemplates (t : Text) : Text :=
  (((t.splitOn '\n').map dropLineTemplate).intersperse ['\n']).flatten

def wordsOf (t : Text) : List Text :=
  (dropTemplates (dropParentheticals t)).runs isWord

def reach : Nat := 6

/-- The words before a place, from the nearest outwards. -/
def wordsBefore (t : Text) : List Text :=
  (wordsOf t).reverse.take reach

def wordsAfter (t : Text) : List Text :=
  (wordsOf t).take reach

def earliness (near : List Text) (w : Text) : Nat :=
  match near.idxOf? w with
  | some i => near.length - i
  | none => 0

/-- How well two lists of words agree, both from the nearest outwards: a word of the selection that
is found among those of the article counts more the earlier it is found. -/
def agreement (selected near : List Text) : Nat :=
  selected.foldr (fun w n => earliness near w + n) 0

end Context

end Wikitext
