import Wikitext.Proofs.PatternMatching
import Wikitext.Proofs.SelectionSpan

/-! Which of several places is taken for a selection: the first of those whose surroundings agree
best with its own. No surroundings agree better than those that begin with the same words, so a
place that has them is taken, or one before it that agrees as well. -/

namespace Wikitext

open Occurrence Document

namespace Context

variable {selected near : List Text} {n : Nat}

theorem earliness_nil (w : Text) : earliness [] w = 0 := rfl

theorem earliness_cons_self (w : Text) (near : List Text) :
    earliness (w :: near) w = near.length + 1 := by
  simp [earliness, List.idxOf?_cons]

theorem earliness_cons_of_ne {v w : Text} (h : w ≠ v) (near : List Text) :
    earliness (v :: near) w = earliness near w := by
  rw [earliness, earliness, List.idxOf?_cons, if_neg (by simpa using h.symm)]
  cases near.idxOf? w <;> simp

theorem agreement_cons (w : Text) (selected near : List Text) :
    agreement (w :: selected) near = earliness near w + agreement selected near :=
  rfl

theorem agreement_nil (selected : List Text) : agreement selected [] = 0 := by
  induction selected with
  | nil => rfl
  | cons w selected ih => rw [agreement_cons, ih, earliness_nil]

theorem agreement_perm {selected' : List Text} (h : selected.Perm selected') (near : List Text) :
    agreement selected near = agreement selected' near := by
  induction h with
  | nil => rfl
  | cons w _ ih => rw [agreement_cons, agreement_cons, ih]
  | swap v w _ => simp only [agreement_cons]; omega
  | trans _ _ ih ih' => exact ih.trans ih'

theorem agreement_cons_of_notMem {v : Text} (h : v ∉ selected) (near : List Text) :
    agreement selected (v :: near) = agreement selected near := by
  induction selected with
  | nil => rfl
  | cons w selected ih =>
    rw [List.mem_cons, not_or] at h
    rw [agreement_cons, agreement_cons, earliness_cons_of_ne (Ne.symm h.1), ih h.2]

/-- The highest agreement of `k` words with `n` others: the first of each, the second of each, and
so on. -/
def fullAgreement : Nat → Nat → Nat
  | _, 0 => 0
  | n, k + 1 => n + fullAgreement (n - 1) k

/-- Words that differ from each other cannot all be found first. -/
theorem agreement_le_fullAgreement (hs : selected.Nodup) (hn : near.length ≤ n) :
    agreement selected near ≤ fullAgreement n selected.length := by
  induction near generalizing selected n with
  | nil => rw [agreement_nil]; exact Nat.zero_le _
  | cons v near ih =>
    rw [List.length_cons] at hn
    by_cases hv : v ∈ selected
    · have hperm := List.perm_cons_erase hv
      have hv' : v ∉ selected.erase v := hs.not_mem_erase
      have hrest := ih (hs.erase v) (Nat.le_sub_one_of_lt hn)
      rw [agreement_perm hperm, hperm.length_eq, agreement_cons, earliness_cons_self,
        agreement_cons_of_notMem hv', List.length_cons, fullAgreement]
      omega
    · rw [agreement_cons_of_notMem hv]
      exact ih hs (by omega)

theorem agreement_eq_fullAgreement (hs : selected.Nodup) (h : selected <+: near) :
    agreement selected near = fullAgreement near.length selected.length := by
  induction selected generalizing near with
  | nil => rfl
  | cons w selected ih =>
    obtain ⟨r, rfl⟩ := h
    obtain ⟨hw, hs⟩ := List.nodup_cons.mp hs
    rw [List.cons_append, agreement_cons, earliness_cons_self, agreement_cons_of_notMem hw,
      ih hs (List.prefix_append _ _), List.length_cons, List.length_cons, fullAgreement,
      Nat.add_sub_cancel]

/-- No words agree better than those that begin with the same. -/
theorem agreement_le_agreement {other : List Text} (hs : selected.Nodup) (h : selected <+: near)
    (hlen : other.length ≤ near.length) : agreement selected other ≤ agreement selected near := by
  rw [agreement_eq_fullAgreement hs h]
  exact agreement_le_fullAgreement hs hlen

end Context

namespace Selection

/-- `Wins score before r after`: of the candidates `before ++ r :: after` the first with the highest
score is `r`. -/
structure Wins (score : ByteRange → Nat) (before : List ByteRange) (r : ByteRange)
    (after : List ByteRange) : Prop where
  before : ∀ q ∈ before, score q < score r
  after : ∀ q ∈ after, score q ≤ score r

section

variable {score : ByteRange → Nat} {before after rs : List ByteRange} {b r : ByteRange}

theorem Wins.score_le (h : Wins score before r after) :
    ∀ q ∈ before ++ r :: after, score q ≤ score r := by
  intro q hq
  rcases List.mem_append.mp hq with hq | hq
  · exact Nat.le_of_lt (h.before q hq)
  · rcases List.mem_cons.mp hq with rfl | hq
    · exact Nat.le_refl _
    · exact h.after q hq

theorem Wins.exists_concat (h : Wins score before b after) (c : ByteRange) :
    ∃ before' after', before ++ b :: (after ++ [c]) =
        before' ++ (if score b < score c then c else b) :: after' ∧
      Wins score before' (if score b < score c then c else b) after' := by
  by_cases hc : score b < score c
  · rw [if_pos hc]
    refine ⟨before ++ b :: after, [], by simp, fun q hq => ?_, by simp⟩
    exact Nat.lt_of_le_of_lt (h.score_le q hq) hc
  · rw [if_neg hc]
    refine ⟨before, after ++ [c], rfl, h.before, fun q hq => ?_⟩
    rcases List.mem_append.mp hq with hq | hq
    · exact h.after q hq
    · obtain rfl : q = c := by simpa using hq
      exact Nat.le_of_not_lt hc

theorem Wins.exists_foldl (h : Wins score before b after) (rs : List ByteRange) :
    ∃ before' r after', before ++ b :: (after ++ rs) = before' ++ r :: after' ∧
      Wins score before' r after' ∧ (rs.foldl
        (fun (best, top) c => let n := score c; if top < n then (c, n) else (best, top))
        (b, score b)).1 = r := by
  induction rs generalizing before b after with
  | nil => exact ⟨before, b, after, by rw [List.append_nil], h, rfl⟩
  | cons c rs ih =>
    obtain ⟨before', after', he, h'⟩ := h.exists_concat c
    obtain ⟨x, r, y, hsplit, hwins, hr⟩ := ih h'
    refine ⟨x, r, y, ?_, hwins, ?_⟩
    · have happ : before ++ b :: (after ++ c :: rs) = (before ++ b :: (after ++ [c])) ++ rs := by
        simp
      rw [happ, he, ← hsplit]
      simp
    · rw [List.foldl_cons, ← hr]
      by_cases hc : score b < score c <;> simp [hc]

theorem exists_of_best? (h : best? score rs = some r) :
    ∃ before after, rs = before ++ r :: after ∧ Wins score before r after := by
  cases rs with
  | nil => cases h
  | cons b rs =>
    have hfirst : Wins score [] b [] := ⟨by simp, by simp⟩
    obtain ⟨before, r', after, hsplit, hwins, hr⟩ := hfirst.exists_foldl rs
    obtain rfl : r' = r := hr.symm.trans (Option.some.inj h)
    exact ⟨before, after, hsplit, hwins⟩

end

/-- How well the surroundings of a candidate agree with those of the selection. -/
def scoreIn (s : Selection) (d : Document) (r : ByteRange) : Nat :=
  score d (Context.wordsBefore s.before) (Context.wordsAfter s.after) r

/-- A candidate with all the words on either side that count, the nearest of which are those of the
selection, in order. -/
structure Surrounds (s : Selection) (d : Document) (r : ByteRange) : Prop where
  length_before : (Context.wordsBefore (textBefore d r)).length = Context.reach
  length_after : (Context.wordsAfter (textAfter d r)).length = Context.reach
  before : Context.wordsBefore s.before <+: Context.wordsBefore (textBefore d r)
  after : Context.wordsAfter s.after <+: Context.wordsAfter (textAfter d r)

theorem Surrounds.score_le {s : Selection} {d : Document} {r : ByteRange}
    (h : s.Surrounds d r) (hbefore : (Context.wordsBefore s.before).Nodup)
    (hafter : (Context.wordsAfter s.after).Nodup) (q : ByteRange) :
    s.scoreIn d q ≤ s.scoreIn d r := by
  have hlen : (Context.wordsBefore (textBefore d q)).length ≤
      (Context.wordsBefore (textBefore d r)).length := by
    rw [h.length_before]
    exact List.length_take_le _ _
  have hlen' : (Context.wordsAfter (textAfter d q)).length ≤
      (Context.wordsAfter (textAfter d r)).length := by
    rw [h.length_after]
    exact List.length_take_le _ _
  exact Nat.add_le_add (Context.agreement_le_agreement hbefore h.before hlen)
    (Context.agreement_le_agreement hafter h.after hlen')

theorem find?_eq (s : Selection) (d : Document) : s.find? d =
    if s.target.words = [] ∨ maxWords < s.target.words.length then none
    else best? (s.scoreIn d) (Occurrence.all s.target.words d.text) := by
  simp only [find?, Bool.or_eq_true, decide_eq_true_eq]
  rfl

theorem isSome_find? {s : Selection} {d : Document} (hs : s.target.words.length ≤ maxWords) :
    (s.find? d).isSome = true ↔ Occurrence.all s.target.words d.text ≠ [] := by
  rw [find?_eq]
  by_cases hwords : s.target.words = []
  · rw [if_pos (.inl hwords), hwords, all_nil]
    simp
  · rw [if_neg (not_or.mpr ⟨hwords, Nat.not_lt.mpr hs⟩)]
    exact isSome_best? _ _

/-- The span that is reported for a selection is that of the first best of the leftmost matches of
its words. None of them is better than one that is surrounded by the words of the selection, so the
one that is taken is as good, and does not stand behind it. -/
theorem locate?_best (s : Selection) (t : Text) : ∃ rs,
    (∀ rs', Finds (pattern s.target.words) 0 t rs' ↔ rs' = rs) ∧
    (s.target.words.length ≤ maxWords → ((s.locate? (ofText t)).isSome = true ↔ rs ≠ [])) ∧
    (∀ span ∈ s.locate? (ofText t), ∃ before r after, rs = before ++ r :: after ∧
      span = (ofText t).spanOf r ∧ Wins (s.scoreIn (ofText t)) before r after ∧
      ((Context.wordsBefore s.before).Nodup → (Context.wordsAfter s.after).Nodup →
        ∀ o ∈ rs, s.Surrounds (ofText t) o →
          s.scoreIn (ofText t) r = s.scoreIn (ofText t) o ∧ r.start ≤ o.start)) ∧
    ((Context.wordsBefore s.before).Nodup → (Context.wordsAfter s.after).Nodup →
      ∀ o ∈ rs, s.Surrounds (ofText t) o →
        ∀ q ∈ rs, s.scoreIn (ofText t) q ≤ s.scoreIn (ofText t) o) := by
  have hfinds : Finds (pattern s.target.words) 0 t (Occurrence.all s.target.words t) :=
    finds_all (fun _ hw => Text.ne_nil_of_mem_words hw) t
  refine ⟨_, fun rs' => ⟨fun h => h.eq hfinds, fun h => h ▸ hfinds⟩, fun hs => ?_,
    fun span hspan => ?_, fun hbefore hafter o _ ho q _ => ho.score_le hbefore hafter q⟩
  · rw [locate?, Option.isSome_map]
    exact isSome_find? hs
  · obtain ⟨r, hr, rfl⟩ := Option.map_eq_some_iff.mp hspan
    rw [find?_eq] at hr
    split at hr
    · cases hr
    · obtain ⟨before, after, hsplit, hwins⟩ := exists_of_best? hr
      rw [text_ofText] at hsplit
      refine ⟨before, r, after, hsplit, rfl, hwins, fun hbefore hafter o ho hsurrounds => ?_⟩
      have hsame : s.scoreIn (ofText t) r = s.scoreIn (ofText t) o :=
        Nat.le_antisymm (hsurrounds.score_le hbefore hafter r)
          (hwins.score_le o (hsplit ▸ ho))
      refine ⟨hsame, ?_⟩
      have hsorted := hfinds.pairwise
      rw [hsplit, List.pairwise_append, List.pairwise_cons] at hsorted
      rw [hsplit] at ho
      rcases List.mem_append.mp ho with ho | ho
      · exact absurd hsame (Nat.ne_of_gt (hwins.before o ho))
      · rcases List.mem_cons.mp ho with rfl | ho
        · exact Nat.le_refl _
        · exact hsorted.2.1.1 o ho

/-- A word twice, between other words the second time. -/
def repeatedWord : Text :=
  "x. p q r s t u [[x]] a b c d e f".toList

theorem locate?_best_repeatedWord :
    let s : Selection := ⟨"t u".toList, "x".toList, "a b".toList⟩
    s.locate? (ofText repeatedWord) = some ⟨17, 1⟩ ∧
      ∃ rs, Finds (pattern ["x".toList]) 0 repeatedWord rs ∧ ⟨0, 1⟩ ∈ rs ∧
        ∀ q ∈ rs, s.scoreIn (ofText repeatedWord) q ≤ s.scoreIn (ofText repeatedWord) ⟨17, 18⟩ := by
  intro s
  have hwords : s.target.words = ["x".toList] := by decide +kernel
  have hall : Occurrence.all ["x".toList] repeatedWord = [⟨0, 1⟩, ⟨17, 18⟩] := by decide +kernel
  obtain ⟨rs, hrs, -, -, hbest⟩ := locate?_best s repeatedWord
  rw [hwords] at hrs
  have hfinds := (hrs rs).mpr rfl
  have hsame : rs = [⟨0, 1⟩, ⟨17, 18⟩] := by
    rw [← hall]
    exact hfinds.eq (finds_all (by decide) repeatedWord)
  have hsurrounds : s.Surrounds (ofText repeatedWord) ⟨17, 18⟩ :=
    ⟨by decide +kernel, by decide +kernel, by decide +kernel, by decide +kernel⟩
  exact ⟨by decide +kernel, rs, hfinds, by simp [hsame],
    hbest (by decide +kernel) (by decide +kernel) _ (by simp [hsame]) hsurrounds⟩

end Selection

end Wikitext
