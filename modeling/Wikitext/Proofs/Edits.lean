import Wikitext.Proofs.AltSearch
import Wikitext.Proofs.ImageInsertion
import Wikitext.Proofs.LeadingRun

/-! Edits only add. Each puts one block into its text or leaves it alone, whatever it is given, so a
text is kept, character by character and in order, in all that later edits make of it. -/

namespace Wikitext

open OuterLink Document

namespace Text

/-- The place between `p` and `q` lies inside the first copy of `markup` in `p ++ q`, at neither of
its ends. -/
def InsideFirst (markup p q : Text) : Prop :=
  ∃ before u v after, p = before ++ u ∧ q = v ++ after ∧ markup = u ++ v ∧ u ≠ [] ∧ v ≠ [] ∧
    ∀ r s, p ++ q = r ++ (markup ++ s) → before.length ≤ r.length

end Text

/-- One call of an editor. -/
inductive Edit where
  | image (markup : Text)
  | alt (alt caption markup : Text)

namespace Edit

def apply : Edit → Text → Text
  | image markup, t => insertImage markup t
  | alt a caption markup, t => insertAlt a caption markup t

/-- The texts that some edits go through, from the first on. -/
def history : List Edit → Text → List Text
  | [], t => [t]
  | e :: es, t => t :: history es (e.apply t)

/-- There is nothing to put into the text, or no place for it. -/
def Idle : Edit → Text → Prop
  | image markup, _ => markup = []
  | alt a caption markup, t => markup = [] ∨ ¬ markup <:+: t ∨ addAlt? a caption markup = none

/-- `Inserts e t t'`: the text `t'` is `t` with a block put in at one place. The block holds what
the edit `e` brings, and alternative text goes inside its markup. -/
inductive Inserts : Edit → Text → Text → Prop
  | image {markup p block q : Text} (hne : block ≠ []) (hm : markup <:+: block) :
      Inserts (image markup) (p ++ q) (p ++ (block ++ q))
  | alt {a caption markup p block q : Text} (hne : block ≠ []) (ha : a <:+: block)
      (hin : markup.InsideFirst p q) :
      Inserts (alt a caption markup) (p ++ q) (p ++ (block ++ q))

theorem Inserts.sublist {e : Edit} {t t' : Text} (h : Inserts e t t') : t.Sublist t' := by
  cases h with
  | image => exact (List.sublist_append_right _ _).append_left _
  | alt => exact (List.sublist_append_right _ _).append_left _

theorem inserts_image {markup : Text} (hm : markup ≠ []) (t : Text) :
    Inserts (image markup) t (insertImage markup t) := by
  by_cases ht : t = []
  · rw [insertImage, if_neg hm, if_pos ht, ht]
    simpa using Inserts.image (p := []) (q := []) hm List.infix_rfl
  · have hsplit := LeadingBlock.text_append_rest t
    generalize hhead : (LeadingBlock.ofDocument (ofText t)).text = head at hsplit
    generalize (LeadingBlock.ofDocument (ofText t)).rest = tail at hsplit
    have hblock : t.gapAbove head ++ (markup ++ t.gapBelow head tail) ≠ [] := by simp [hm]
    have hinserts : Inserts (image markup) (head ++ tail) _ :=
      .image hblock ⟨_, _, List.append_assoc _ _ _⟩
    rw [hsplit] at hinserts
    rw [insertImage_eq hm ht hhead hsplit.symm]
    simpa only [List.append_assoc] using hinserts

theorem exists_of_addAlt? {a caption markup edited : Text}
    (h : addAlt? a caption markup = some edited) : ∃ u w v, markup = u ++ v ∧
      edited = u ++ (w ++ v) ∧ u ≠ [] ∧ v ≠ [] ∧ w ≠ [] ∧ a <:+: w := by
  rw [addAlt?] at h
  split at h
  · cases h
  · rename_i l hl
    split at h
    · rename_i hstart
      obtain ⟨place, hplace, rfl⟩ := Option.map_eq_some_iff.mp h
      obtain ⟨x, y, z, pre, before, d, e, hp⟩ := exists_placed_of_mem (List.mem_of_mem_head? hl)
      have hx : Cell.chars x = [] := Text.eq_nil_of_byteLength_eq_zero (hp.start_eq ▸ hstart)
      have hmarkup : markup = l.text ++ Cell.chars z := by
        rw [hp.chars_eq, hx, hp.text_eq]
        rfl
      have htext : l.text = render l.title l.params := hp.text_eq.trans hp.text_eq_render
      have hgain : Gains a caption True l.params (place.insert a l.params) := by
        obtain ⟨-, u, p, v, written, he, hc, hcase⟩ := AltPlace.exists_chosen hplace
        rw [he]
        rcases hcase with ⟨hw, rfl⟩ | ⟨⟨rfl, rfl⟩, rfl⟩
        · rw [AltPlace.insert_before_length]
          exact .before hc hw
        · have hbehind : Gains a caption True _ _ := .behind hc trivial
          simpa [AltPlace.insert] using hbehind
      obtain ⟨u, w, v, hput, hw⟩ := hgain.exists_put l.title
      refine ⟨u, w, v ++ Cell.chars z, ?_, ?_, hput.left, by simp [hput.right], hw,
        hput.alt_infix⟩
      · rw [hmarkup, htext, hput.text_eq, List.append_assoc]
      · rw [hput.text_eq', hmarkup, List.drop_left]
        simp only [List.append_assoc]
    · cases h

theorem inserts_alt {a caption markup t before after edited : Text}
    (hfirst : t.breakOn? markup = some (before, after))
    (hedited : addAlt? a caption markup = some edited) :
    Inserts (alt a caption markup) t (before ++ edited ++ after) := by
  obtain ⟨u, w, v, hm, rfl, hu, hv, hw, ha⟩ := exists_of_addAlt? hedited
  have ht : t = (before ++ u) ++ (v ++ after) := by
    rw [Text.breakOn?_eq_append hfirst, hm]
    simp only [List.append_assoc]
  have hin : markup.InsideFirst (before ++ u) (v ++ after) := by
    refine ⟨before, u, v, after, rfl, rfl, hm, hu, hv, fun r s hr => ?_⟩
    rw [← ht] at hr
    simpa using Text.breakOnFrom_length_le hfirst hr
  have hinserts : Inserts (alt a caption markup) _ _ := .alt hw ha hin
  rw [← ht] at hinserts
  simpa only [List.append_assoc] using hinserts

/-- An edit puts in what it brings, unless it has nothing to do. -/
theorem idle_or_inserts (e : Edit) (t : Text) :
    (e.Idle t ∧ e.apply t = t) ∨ Inserts e t (e.apply t) := by
  cases e with
  | image markup =>
    by_cases hm : markup = []
    · exact .inl ⟨hm, by rw [apply, insertImage, if_pos hm]⟩
    · exact .inr (inserts_image hm t)
  | alt a caption markup =>
    rw [apply, insertAlt]
    by_cases hm : markup = []
    · exact .inl ⟨.inl hm, if_pos hm⟩
    · rw [if_neg hm]
      cases hfirst : t.breakOn? markup with
      | none =>
        refine .inl ⟨.inr (.inl ?_), rfl⟩
        rintro ⟨p, q, ht⟩
        obtain ⟨u, v, hsome⟩ := Text.exists_breakOn? (ht.symm.trans (List.append_assoc _ _ _))
        simp [hfirst] at hsome
      | some split =>
        cases hedited : addAlt? a caption markup with
        | none => exact .inl ⟨.inr (.inr hedited), rfl⟩
        | some edited => exact .inr (inserts_alt hfirst hedited)

theorem sublist_apply (e : Edit) (t : Text) : t.Sublist (e.apply t) := by
  rcases e.idle_or_inserts t with ⟨-, he⟩ | h
  · rw [he]
  · exact h.sublist

theorem sublist_of_mem_history {es : List Edit} {s t : Text} (h : s ∈ history es t) :
    t.Sublist s := by
  induction es generalizing t with
  | nil => rw [List.mem_singleton.mp h]
  | cons e es ih =>
    rcases List.mem_cons.mp h with rfl | h
    · exact .refl _
    · exact (e.sublist_apply t).trans (ih h)

/-- Every edit leaves its text alone or puts one block into it, and what a text holds is kept in all
the texts that edits make of it. -/
theorem keeps_text :
    (∀ e t, (Idle e t ∧ e.apply t = t) ∨ Inserts e t (e.apply t)) ∧
    ∀ es t, (history es t).Pairwise List.Sublist ∧
      t.Sublist (es.foldl (fun t e => e.apply t) t) := by
  refine ⟨idle_or_inserts, fun es t => ?_⟩
  induction es generalizing t with
  | nil => exact ⟨List.pairwise_singleton _ _, .refl _⟩
  | cons e es ih =>
    obtain ⟨hpairwise, hlast⟩ := ih (e.apply t)
    refine ⟨?_, (e.sublist_apply t).trans hlast⟩
    exact .cons (fun s hs => (e.sublist_apply t).trans (sublist_of_mem_history hs)) hpairwise

end Edit

end Wikitext
