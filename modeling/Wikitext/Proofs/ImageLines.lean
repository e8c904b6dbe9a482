import Mathlib.Data.List.Chain
import Wikitext.Proofs.ImageStacking

/-! An image put below the leading block stands on lines of its own, and the line breaks around it
are like those of the article. The block takes in the line breaks behind its last item, so what
follows it never begins with one, and no pair of a carriage return and a line feed is divided. -/

namespace Wikitext

open Document

namespace Text

/-- Every line feed of the text follows a carriage return. -/
def Paired (t : Text) : Prop :=
  t.head? ≠ some '\n' ∧ t.IsChain fun a b => b = '\n' → a = '\r'

instance (t : Text) : Decidable t.Paired :=
  inferInstanceAs (Decidable (_ ≠ _ ∧ List.IsChain (fun a b => b = '\n' → a = '\r') t))

variable {s t : Text}

theorem Paired.append (hs : s.Paired) (ht : t.Paired) : (s ++ t).Paired := by
  constructor
  · cases s with
    | nil => exact ht.1
    | cons c s => exact hs.1
  · refine List.isChain_append.mpr ⟨hs.2, ht.2, fun a _ b hb hfeed => ?_⟩
    subst hfeed
    exact absurd hb ht.1

theorem Paired.of_append_left (h : (s ++ t).Paired) : s.Paired := by
  constructor
  · cases s with
    | nil => nofun
    | cons c s => exact h.1
  · exact (List.isChain_append.mp h.2).1

theorem Paired.of_append_right (h : (s ++ t).Paired) (ht : t.head? ≠ some '\n') : t.Paired :=
  ⟨ht, (List.isChain_append.mp h.2).2.1⟩

theorem paired_of_notMem (h : '\n' ∉ t) : t.Paired := by
  constructor
  · exact fun hfeed => h (List.mem_of_mem_head? hfeed)
  · refine List.isChain_iff_getElem.mpr fun i hi hfeed => ?_
    exact absurd (hfeed ▸ List.getElem_mem hi) h

theorem Paired.lineBreak_eq (h : t.Paired) (hfeed : '\n' ∈ t) : t.lineBreak = ['\r', '\n'] := by
  obtain ⟨s, r, rfl, hs⟩ := List.eq_append_cons_of_mem hfeed
  rw [Text.lineBreak_eq hs, if_pos]
  rcases List.eq_nil_or_concat s with rfl | ⟨s, c, rfl⟩
  · exact absurd rfl h.1
  · rw [List.concat_eq_append] at h ⊢
    have hc := (List.isChain_append.mp h.2).2.2 c (by simp) '\n' rfl rfl
    simp [hc]

theorem lineBreak_of_notMem (h : '\r' ∉ t) : t.lineBreak = ['\n'] := by
  rw [lineBreak, if_neg]
  intro hpair
  simp only [Bool.and_eq_true, decide_eq_true_eq] at hpair
  exact h ((List.takeWhile_sublist _).subset (List.mem_of_getLast? hpair.2))

theorem Unbroken.head?_ne (h : t.Unbroken) : t.head? ≠ some '\n' := by
  cases t with
  | nil => nofun
  | cons c r =>
    rintro hc
    obtain rfl : c = '\n' := by simpa using hc
    exact h.1 ⟨r, rfl⟩

/-- On either side there is nothing or the line break of the text. -/
theorem gaps_of_lineBreak {P : Text → Prop} {text : Text} (hnil : P [])
    (hbreak : P text.lineBreak) (head tail : Text) :
    P (text.gapAbove head) ∧ P (text.gapBelow head tail) := by
  constructor
  · rw [gapAbove]
    split
    · exact hnil
    · exact hbreak
  · rw [gapBelow]
    split
    · exact hnil
    · exact hbreak

theorem Gap.getLast?_eq (h : t.Gap) (hne : t ≠ []) : t.getLast? = some '\n' := by
  rcases h with rfl | rfl | rfl
  · exact absurd rfl hne
  · rfl
  · rfl

theorem Gap.begins (h : t.Gap) (hne : t ≠ []) : ['\n'] <+: t ∨ ['\r', '\n'] <+: t := by
  rcases h with rfl | rfl | rfl
  · exact absurd rfl hne
  · exact .inl List.prefix_rfl
  · exact .inr List.prefix_rfl

end Text

theorem LeadingBlock.unbroken_rest {t : Text} (h : (ofDocument (.ofText t)).text ≠ []) :
    (ofDocument (.ofText t)).rest.Unbroken := by
  obtain ⟨hleads, -⟩ := leads_itemsOf (t := t) (w := []) (c := Cell.ofText t) rfl
    (Cell.atBoundary_ofText t)
  obtain ⟨rest, hrest, hunbroken⟩ := hleads.exists_rest (show t = [] ++ t from rfl)
  change t = (ofDocument (.ofText t)).text ++ rest at hrest
  rw [List.append_cancel_left ((text_append_rest t).trans hrest)]
  refine hunbroken fun hnil => h ?_
  change (itemsOf (Cell.ofText t)).flatMap LeadingItem.text = []
  rw [hnil, List.flatMap_nil]

/-- `OwnLines text markup head above below tail`: between `head` and `tail` the markup is put into
the text on lines of its own, with at most one line break more on either side. -/
structure OwnLines (text markup head above below tail : Text) : Prop where
  text_eq : text = head ++ tail
  insert_eq : insertImage markup text = head ++ above ++ (markup ++ (below ++ tail))
  gap_above : above.Gap
  gap_below : below.Gap
  starts : head ++ above = [] ∨ (head ++ above).getLast? = some '\n'
  stops : below ++ tail = [] ∨ ['\n'] <+: below ++ tail ∨ ['\r', '\n'] <+: below ++ tail
  undivided : ¬ (head.getLast? = some '\r' ∧ tail.head? = some '\n')

section

variable {text markup head tail : Text}

theorem ownLines_gaps (hm : markup ≠ []) (ht : text ≠ [])
    (hhead : (LeadingBlock.ofDocument (.ofText text)).text = head) (htext : text = head ++ tail)
    (htail : head ≠ [] → tail.Unbroken) :
    OwnLines text markup head (text.gapAbove head) (text.gapBelow head tail) tail where
  text_eq := htext
  insert_eq := by rw [insertImage_eq hm ht hhead htext, List.append_assoc]
  gap_above := text.gap_gapAbove head
  gap_below := text.gap_gapBelow head tail
  starts := by
    by_cases hne : text.gapAbove head = []
    · rw [hne, List.append_nil]
      exact Text.ends_of_gapAbove hne
    · rw [List.getLast?_append_of_ne_nil _ hne]
      exact .inr ((text.gap_gapAbove head).getLast?_eq hne)
  stops := by
    by_cases hne : text.gapBelow head tail = []
    · exact .inl (by rw [hne, Text.tail_of_gapBelow hne, List.append_nil])
    · refine .inr (((text.gap_gapBelow head tail).begins hne).imp ?_ ?_)
      all_goals exact fun h => h.trans (List.prefix_append _ _)
  undivided := by
    rintro ⟨hlast, hfirst⟩
    have hne : head ≠ [] := by
      rintro rfl
      cases hlast
    exact (htail hne).head?_ne hfirst

/-- What is put together of texts in which every line feed follows a carriage return is such a
text. -/
theorem OwnLines.paired {above below : Text} (h : OwnLines text markup head above below tail)
    (htext : text.Paired) (htail : tail.head? ≠ some '\n') (hm : markup.Paired)
    (habove : above.Paired) (hbelow : below.Paired) : (insertImage markup text).Paired := by
  have hhead : head.Paired := (h.text_eq ▸ htext).of_append_left
  have hbehind : tail.Paired := (h.text_eq ▸ htext).of_append_right htail
  rw [h.insert_eq]
  exact (hhead.append habove).append (hm.append (hbelow.append hbehind))

/-- Markup put into a text stands on lines of its own below the leading block, and divides no line
break. Where all lines of the text end in a carriage return and a line feed, so do those of the
result; where no carriage return is, none comes in. -/
theorem insertImage_ownLines (hm : markup ≠ []) (ht : text ≠ []) :
    ∃ head above below tail, OwnLines text markup head above below tail ∧
      (LeadingBlock.ofDocument (.ofText text)).text = head ∧
      ('\n' ∈ text → text.Paired → '\n' ∉ markup → (insertImage markup text).Paired) ∧
      ('\r' ∉ text → '\r' ∉ markup → '\r' ∉ insertImage markup text) := by
  have hsplit := (LeadingBlock.text_append_rest text).symm
  have htail := LeadingBlock.unbroken_rest (t := text)
  generalize hhead : (LeadingBlock.ofDocument (.ofText text)).text = head at hsplit htail
  generalize (LeadingBlock.ofDocument (.ofText text)).rest = tail at hsplit htail
  have hlines := ownLines_gaps hm ht hhead hsplit htail
  refine ⟨_, _, _, _, hlines, rfl, fun hfeed hpaired hline => ?_, fun htext hmarkup => ?_⟩
  · have hbreak : text.lineBreak.Paired := by
      rw [hpaired.lineBreak_eq hfeed]
      decide
    obtain ⟨habove, hbelow⟩ :=
      Text.gaps_of_lineBreak (P := Text.Paired) (by decide) hbreak head tail
    have hfirst : tail.head? ≠ some '\n' := by
      intro hfirst
      by_cases hnil : head = []
      · rw [hnil, List.nil_append] at hsplit
        exact hpaired.1 (hsplit ▸ hfirst)
      · exact (htail hnil).head?_ne hfirst
    exact hlines.paired hpaired hfirst (Text.paired_of_notMem hline) habove hbelow
  · have hbreak : '\r' ∉ text.lineBreak := by
      rw [Text.lineBreak_of_notMem htext]
      decide
    obtain ⟨habove, hbelow⟩ :=
      Text.gaps_of_lineBreak (P := ('\r' ∉ ·)) (by decide) hbreak head tail
    have hparts : '\r' ∉ head ∧ '\r' ∉ tail := by
      rw [hsplit, List.mem_append, not_or] at htext
      exact htext
    rw [hlines.insert_eq]
    simp only [List.mem_append, not_or]
    exact ⟨⟨hparts.1, habove⟩, hmarkup, hbelow, hparts.2⟩

end

theorem insertImage_ownLines_notedArticle :
    let a : Text := "[[File:A]]".toList
    (∃ head above below tail, OwnLines notedArticle a head above below tail) ∧
      '\n' ∈ notedArticle ∧ notedArticle.Paired ∧ (insertImage a notedArticle).Paired := by
  intro a
  have hfeed : '\n' ∈ notedArticle := by decide
  have hpaired : notedArticle.Paired := by decide
  have ha : a ≠ [] := by decide
  have htext : notedArticle ≠ [] := by decide
  obtain ⟨head, above, below, tail, hlines, -, hresult, -⟩ := insertImage_ownLines ha htext
  exact ⟨⟨head, above, below, tail, hlines⟩, hfeed, hpaired, hresult hfeed hpaired (by decide)⟩

end Wikitext
