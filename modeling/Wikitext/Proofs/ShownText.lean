import Mathlib.Data.List.DropRight
import Wikitext.Proofs.Tiling
import Wikitext.Proofs.TreeRendering

/-! What a reader sees of any wikitext, well-formed or not. The links that the scan has open and the
texts held for them need not agree, since links may open in a template and close outside; still
every step keeps what is held, in order, drops some of it, or adds its own text at the end. Deleting
the leftmost tags leaves no tag, for what is in front of a deleted tag has no `<`. -/

namespace Wikitext

open Step Document

namespace Text

variable (t : Text)

theorem trimStart_trim : t.trim.trimStart = t.trim := by
  refine List.dropWhile_eq_self_iff.mpr fun hpos => ?_
  have hp : t.trim <+: t.trimStart := List.rdropWhile_prefix isWhite t.trimStart
  rw [hp.getElem hpos]
  exact List.dropWhile_get_zero_not isWhite t (Nat.lt_of_lt_of_le hpos hp.length_le)

theorem trim_trim : t.trim.trim = t.trim := by
  rw [trim, trimStart_trim]
  exact List.rdropWhile_idempotent isWhite t.trimStart

theorem isWhite_of_dropWhile_head? {c : Char} (h : c ∈ (t.dropWhile isWhite).head?) :
    isWhite c = false := by
  have hhead := List.head?_dropWhile_not isWhite t
  rw [Option.mem_def.mp h] at hhead
  simpa using hhead

theorem isWhite_of_mem_head?_trim {c : Char} (h : c ∈ t.trim.head?) : isWhite c = false := by
  rw [← trimStart_trim] at h
  exact isWhite_of_dropWhile_head? _ h

theorem isWhite_of_mem_getLast?_trim {c : Char} (h : c ∈ t.trim.getLast?) : isWhite c = false := by
  rw [trim, trimEnd, List.getLast?_reverse] at h
  exact isWhite_of_dropWhile_head? _ h

theorem trim_sublist : t.trim.Sublist t := by
  have hend : t.trimStart.trimEnd <+: t.trimStart := List.rdropWhile_prefix isWhite t.trimStart
  exact hend.sublist.trans (List.dropWhile_sublist isWhite)

end Text

theorem displayText_trim (t : Text) : (displayText t).trim = displayText t :=
  Text.trim_trim _

namespace Stripped

variable {t r : Text}

theorem sublist (h : Stripped t r) : r.Sublist t := by
  induction h with
  | done => exact List.Sublist.refl _
  | @tag p b t r hp hb h ih =>
    refine List.Sublist.append_left ?_ p
    have hbehind : t.Sublist ('<' :: (b ++ '>' :: t)) :=
      (((List.suffix_cons '>' t).trans (List.suffix_append b _)).trans
        (List.suffix_cons '<' _)).sublist
    exact ih.trans hbehind

/-- Where tags have been deleted none is left, also not across the joints. -/
theorem tagless (h : Stripped t r) : ¬ ['<', '>'].Sublist r := by
  induction h with
  | @done t h =>
    intro hsub
    obtain ⟨p, q, rfl, hmem, hq⟩ := List.cons_sublist_iff.mp hsub
    obtain ⟨p, m, rfl⟩ := List.append_of_mem hmem
    refine h p (m ++ q) (by simp) (List.mem_append_right _ ?_)
    exact List.singleton_sublist.mp hq
  | @tag p b t r hp hb h ih =>
    intro hsub
    obtain ⟨u, v, huv, hu, hv⟩ := List.sublist_append_iff.mp hsub
    cases u with
    | nil =>
      rw [List.nil_append] at huv
      rw [← huv] at hv
      exact ih hv
    | cons c u =>
      obtain ⟨rfl, -⟩ := List.cons.inj huv
      exact hp (hu.subset List.mem_cons_self)

end Stripped

namespace Reading

theorem text_eq (r : Reading) : r.text = r.around.reverse.flatten ++ r.current := by
  simp [text]

/-- A step keeps what has been read, in order, or drops some of it; it adds at most its own text,
and at the end. -/
theorem text_read_sublist (r : Reading) (s : Step) :
    (r.read s).text.Sublist (r.text ++ s.text) := by
  have hkeep : r.text.Sublist (r.text ++ s.text) := List.sublist_append_left _ _
  have hwrite : (r.write s.text).text = r.text ++ s.text := by simp [text_eq, write]
  obtain ⟨k, x, e⟩ := s
  rw [read]
  split
  · exact hkeep
  cases k with
  | linkOpen =>
    have hopen : text ⟨[], r.current :: r.around⟩ = r.text := by simp [text_eq]
    exact hopen ▸ hkeep
  | linkClose =>
    obtain ⟨current, around⟩ := r
    cases around with
    | nil => exact hkeep
    | cons outer more =>
      have hclose : text ⟨outer ++ current, more⟩ = text ⟨current, outer :: more⟩ := by
        simp [text_eq]
      exact hclose ▸ hkeep
  | pipe =>
    by_cases hr : r.around = []
    · rw [readOutside, if_pos hr, hwrite]
    · have hdrop : (text { r with current := [] }).Sublist r.text := by
        rw [text_eq, text_eq, List.append_nil]
        exact List.sublist_append_left _ _
      rw [readOutside, if_neg hr]
      exact hdrop.trans hkeep
  | newline | text => exact hwrite ▸ List.Sublist.refl _
  | comment | templateOpen | templateClose => exact hkeep

theorem text_foldl_read_sublist (ss : List Step) (r : Reading) :
    (ss.foldl read r).text.Sublist (r.text ++ textOf ss) := by
  induction ss generalizing r with
  | nil => simp [textOf]
  | cons s ss ih =>
    rw [List.foldl_cons, textOf_cons, ← List.append_assoc]
    exact (ih (r.read s)).trans ((text_read_sublist r s).append_right _)

/-- The texts held, the innermost first. -/
def stack (r : Reading) : List Text :=
  r.current :: r.around

/-- One step on a stack of texts, the innermost first. Nothing in a stack keeps it from being empty,
and on an empty one nothing is written; a text is taken off only where another is left. -/
def readOnto (texts : List Text) (s : Step) : List Text :=
  if 0 < s.depths.template then texts
  else match s.kind with
    | .linkOpen => [] :: texts
    | .linkClose =>
      if 1 < texts.length then texts.tail.modifyHead (· ++ texts.headD []) else texts
    | .pipe => texts.modifyHead fun t => if 1 < texts.length then [] else t ++ s.text
    | .newline | .text => texts.modifyHead (· ++ s.text)
    | .comment | .templateOpen | .templateClose => texts

theorem stack_read (r : Reading) (s : Step) : (r.read s).stack = readOnto r.stack s := by
  obtain ⟨current, around⟩ := r
  obtain ⟨k, x, e⟩ := s
  rw [read, readOnto]
  split
  · rfl
  cases k with
  | linkClose => cases around <;> rfl
  | pipe => cases around <;> simp [readOutside, stack, write]
  | _ => rfl

theorem stack_foldl_read (ss : List Step) (r : Reading) :
    (ss.foldl read r).stack = ss.foldl readOnto r.stack := by
  induction ss generalizing r with
  | nil => rfl
  | cons s ss ih => rw [List.foldl_cons, List.foldl_cons, ih, stack_read]

end Reading

/-- What is shown of any text. It has no white space at the ends, no tag, and no character that the
text does not have, in its order. The texts held meanwhile are those of a stack which is never
empty. -/
theorem displayText_leaves_no_tag (t : Text) :
    let shown := displayText t
    let steps := (ofText t).steps
    ((∀ c ∈ shown.head?, isWhite c = false) ∧ ∀ c ∈ shown.getLast?, isWhite c = false) ∧
    (∀ p q, shown = p ++ '<' :: q → '>' ∉ q) ∧
    shown.Sublist t ∧
    (∀ us, us <+: steps → us.foldl Reading.readOnto [[]] ≠ []) ∧
    shown = (stripTags (steps.foldl Reading.readOnto [[]]).reverse.flatten).trim := by
  intro shown steps
  have hstack (us : List Step) :
      us.foldl Reading.readOnto [[]] = (us.foldl Reading.read .empty).stack :=
    (Reading.stack_foldl_read us .empty).symm
  obtain ⟨r, hr⟩ := exists_stripped (steps.foldl Reading.read .empty).text
  have hshown : shown = r.trim := by rw [← hr.stripTags_eq]; rfl
  have hsub : shown.Sublist r := hshown ▸ r.trim_sublist
  refine ⟨⟨?_, ?_⟩, fun p q hpq hq => ?_, ?_, fun us _ => ?_, ?_⟩
  · exact fun c hc => Text.isWhite_of_mem_head?_trim _ hc
  · exact fun c hc => Text.isWhite_of_mem_getLast?_trim _ hc
  · refine hr.tagless (.trans ?_ hsub)
    rw [hpq]
    have htag : ['<', '>'].Sublist ('<' :: q) := (List.singleton_sublist.mpr hq).cons_cons '<'
    exact htag.trans (List.sublist_append_right p _)
  · have hread := Reading.text_foldl_read_sublist steps .empty
    rw [textOf_steps] at hread
    exact (hsub.trans hr.sublist).trans hread
  · rw [hstack]
    exact List.cons_ne_nil _ _
  · rw [hstack]
    rfl

/-- The `>` behind a deleted tag stays, and the `<` in the tag does not. -/
example : displayText "[[a|<<b]]>i> \x7b\x7bc[[\x7d\x7d]]".toList = "i>".toList := by
  decide +kernel

end Wikitext
