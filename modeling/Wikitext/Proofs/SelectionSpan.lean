import Wikitext.Proofs.Occurrences
import Wikitext.Proofs.Offsets
import Wikitext.Selection.Locate

/-! A span is reported for a selection just when its words stand in the text, in order and with gaps
between them. Both ends of the span are rounded down to a cluster boundary, so it begins with the
words or before them, and it holds them all just when they end at a boundary. -/

namespace Wikitext

open Occurrence Document

namespace Text

theorem ne_nil_of_mem_runsFrom {keep : Char → Bool} {run t : Text} {found : List Text}
    (hfound : ∀ w ∈ found, w ≠ []) : ∀ w ∈ runsFrom keep run found t, w ≠ [] := by
  have hpush {run : Text} {found : List Text} (hfound : ∀ w ∈ found, w ≠ []) :
      ∀ w ∈ (if run = [] then found else run.reverse :: found), w ≠ [] := by
    intro w hw
    split at hw
    · exact hfound w hw
    · rename_i hrun
      rcases List.mem_cons.mp hw with rfl | hw
      · simpa using hrun
      · exact hfound w hw
  induction t generalizing run found with
  | nil =>
    intro w hw
    rw [runsFrom, List.mem_reverse] at hw
    exact hpush hfound w hw
  | cons c r ih =>
    rw [runsFrom]
    split
    · exact ih hfound
    · exact ih (hpush hfound)

theorem ne_nil_of_mem_words {t w : Text} (h : w ∈ t.words) : w ≠ [] :=
  ne_nil_of_mem_runsFrom (by simp) w h

end Text

namespace Document

/-- The text of the clusters that are reported for `m`, which stands behind `p`: it begins at the
last boundary up to `m`, and ends at the last boundary up to the end of `m`. -/
theorem exists_slice_spanOf {t p m q : Text} (ht : t = p ++ (m ++ q)) {r : ByteRange}
    (hr : r = ⟨p.byteLength, p.byteLength + m.byteLength⟩) : ∃ p' u v w,
      p = p' ++ u ∧ u ++ m = v ++ w ∧ (ofText t).slice ((ofText t).spanOf r) = v ∧
      (ofText t).bytesOf ((ofText t).spanOf r) = ⟨p'.byteLength, (p' ++ v).byteLength⟩ ∧
      (∀ b, (ofText t).isBoundary b = true → b ≤ r.start → b ≤ p'.byteLength) ∧
      ∀ b, (ofText t).isBoundary b = true → b ≤ r.stop → b ≤ (p' ++ v).byteLength := by
  have hle : r.start ≤ r.stop := by
    rw [hr]
    exact Nat.le_add_right _ _
  obtain ⟨hstart, hstartmax⟩ := (ofText t).byteAt_clusterAt_le r.start
  obtain ⟨hstop, hstopmax⟩ := (ofText t).byteAt_clusterAt_le r.stop
  have hbetween := hstopmax _ ((ofText t).isBoundary_byteAt _) (Nat.le_trans hstart hle)
  have hoffset : ((ofText t).spanOf r).offset = (ofText t).clusterAt r.start := rfl
  obtain ⟨p', hp', hp'b⟩ :=
    exists_prefix_of_isBoundary ((ofText t).isBoundary_byteAt ((ofText t).clusterAt r.start))
  obtain ⟨e, he, heb⟩ :=
    exists_prefix_of_isBoundary ((ofText t).isBoundary_byteAt ((ofText t).clusterAt r.stop))
  have hp : p <+: t := by
    rw [ht]
    exact List.prefix_append _ _
  have hpm : p ++ m <+: t := by
    rw [ht, ← List.append_assoc]
    exact List.prefix_append _ _
  rw [← hp'b] at hstart hbetween hstartmax
  rw [← heb] at hstop hbetween hstopmax
  rw [hr] at hstart hstop
  obtain ⟨u, rfl⟩ := Text.prefix_of_byteLength_le hp' hp hstart
  obtain ⟨v, rfl⟩ := Text.prefix_of_byteLength_le hp' he hbetween
  obtain ⟨w, hw⟩ := Text.prefix_of_byteLength_le he hpm (by
    rw [Text.byteLength_append (p' ++ u)]
    exact hstop)
  rw [List.append_assoc, List.append_assoc, List.append_cancel_left_eq] at hw
  refine ⟨p', u, v, w, rfl, hw.symm, ?_, ?_, hstartmax, hstopmax⟩
  · rw [Document.slice, hoffset, (ofText t).stop_spanOf hle, ← hp'b, ← heb, text_ofText,
      Text.byteLength_append]
    obtain ⟨z, rfl⟩ := he
    rw [List.append_assoc]
    exact Text.slice_append p' v z
  · rw [bytesOf, hoffset, (ofText t).stop_spanOf hle, ← hp'b, ← heb]

end Document

namespace Selection

theorem foldl_best_mem (score : ByteRange → Nat) (rs : List ByteRange) (best : ByteRange × Nat) :
    (rs.foldl (fun (best, top) c => let n := score c; if top < n then (c, n) else (best, top))
      best).1 ∈ best.1 :: rs := by
  induction rs generalizing best with
  | nil => exact List.mem_cons_self
  | cons b rs ih =>
    obtain ⟨best, top⟩ := best
    rcases List.mem_cons.mp (ih (if top < score b then (b, score b) else (best, top))) with he | hm
    · rw [List.foldl_cons, he]
      split <;> simp
    · exact List.mem_cons_of_mem _ (List.mem_cons_of_mem _ hm)

theorem mem_of_best? {score : ByteRange → Nat} {rs : List ByteRange} {r : ByteRange}
    (h : best? score rs = some r) : r ∈ rs := by
  cases rs with
  | nil => cases h
  | cons a rs =>
    obtain rfl := Option.some.inj h
    exact foldl_best_mem score rs (a, score a)

theorem mem_all_of_find? {s : Selection} {d : Document} {r : ByteRange}
    (h : s.find? d = some r) :
    s.target.words ≠ [] ∧ r ∈ Occurrence.all s.target.words d.text := by
  simp only [find?] at h
  split at h
  · cases h
  · rename_i hwords
    simp only [Bool.or_eq_true, decide_eq_true_eq, not_or] at hwords
    exact ⟨hwords.1, mem_of_best? h⟩

/-- The span of a selection begins at the last boundary up to its words and ends at the last
boundary up to their end. So it holds all the words, in order, when they end at a boundary, and
otherwise all but what they have of the cluster in which they end. -/
theorem locate?_matches {s : Selection} {t : Text} {span : Span}
    (h : s.locate? (ofText t) = some span) : ∃ p u m q w,
      t = p ++ (u ++ (m ++ q)) ∧ Matches s.target.words m ∧
      s.find? (ofText t) = some ⟨(p ++ u).byteLength, (p ++ u).byteLength + m.byteLength⟩ ∧
      u ++ m = (ofText t).slice span ++ w ∧
      (ofText t).bytesOf span = ⟨p.byteLength, (p ++ (ofText t).slice span).byteLength⟩ ∧
      (∀ b, (ofText t).isBoundary b = true → b ≤ (p ++ u).byteLength → b ≤ p.byteLength) ∧
      (∀ b, (ofText t).isBoundary b = true → b ≤ (p ++ u).byteLength + m.byteLength →
        b ≤ (p ++ (ofText t).slice span).byteLength) ∧
      (w = [] ↔
        (ofText t).isBoundary ((p ++ u).byteLength + m.byteLength) = true) := by
  obtain ⟨r, hr, rfl⟩ := Option.map_eq_some_iff.mp h
  obtain ⟨hne, hmem⟩ := mem_all_of_find? hr
  obtain ⟨p, m, q, ht, hm, hbytes⟩ :=
    exists_of_mem_all hne (fun _ hw => Text.ne_nil_of_mem_words hw) hmem
  rw [text_ofText] at ht
  obtain ⟨p, u, v, w, rfl, huv, hslice, hspan, hstart, hstop⟩ := exists_slice_spanOf ht hbytes
  rw [hslice]
  rw [hbytes] at hr hstart hstop
  refine ⟨p, u, m, q, w, by rw [ht, List.append_assoc], hm, hr, huv, hspan, hstart, hstop,
    fun hw => ?_, fun hb => ?_⟩
  · have hbound := (ofText t).isBoundary_byteAt ((ofText t).spanOf r).stop
    rw [show (ofText t).byteAt ((ofText t).spanOf r).stop = _ from congrArg ByteRange.stop hspan,
      ← List.append_nil v, ← hw, ← huv, ← List.append_assoc, Text.byteLength_append] at hbound
    exact hbound
  · have hle := hstop _ hb (Nat.le_refl _)
    have hlen := congrArg Text.byteLength huv
    simp only [Text.byteLength_append] at hle hlen
    exact Text.eq_nil_of_byteLength_eq_zero (by omega)

/-- Three words with a link before the first gap and a template in the second. -/
def linkedWords : Text :=
  "See [[Cat|cats]] and \x7b\x7bx\x7d\x7ddogs.".toList

theorem locate?_matches_linkedWords :
    let s : Selection := ⟨[], "cats and dogs".toList, []⟩
    s.locate? (ofText linkedWords) = some ⟨10, 20⟩ ∧ ∃ u m : Text,
      Matches ["cats".toList, "and".toList, "dogs".toList] m ∧
      (ofText linkedWords).slice ⟨10, 20⟩ = u ++ m := by
  intro s
  have hlocate : s.locate? (ofText linkedWords) = some ⟨10, 20⟩ := by decide +kernel
  have hfind : s.find? (ofText linkedWords) = some ⟨10, 30⟩ := by decide +kernel
  have hwords : s.target.words = ["cats".toList, "and".toList, "dogs".toList] := by decide +kernel
  obtain ⟨p, u, m, q, w, -, hm, hr, huv, -, -, -, hw⟩ := locate?_matches hlocate
  have hbytes : (p ++ u).byteLength + m.byteLength = 30 :=
    congrArg ByteRange.stop (Option.some.inj (hr.symm.trans hfind))
  obtain rfl : w = [] := hw.mpr (by rw [hbytes]; decide +kernel)
  rw [List.append_nil] at huv
  exact ⟨hlocate, u, m, hwords ▸ hm, huv.symm⟩

theorem isSome_best? (score : ByteRange → Nat) (rs : List ByteRange) :
    (best? score rs).isSome = true ↔ rs ≠ [] := by
  cases rs with
  | nil => simp [best?]
  | cons r rs => simp [best?]

/-- The words of a selection are found just when they stand in the text, in order and with gaps
between them. -/
theorem isSome_locate? {s : Selection} (hs : s.target.words.length ≤ maxWords) (t : Text) :
    (s.locate? (ofText t)).isSome = true ↔
      s.target.words ≠ [] ∧ ∃ m, Matches s.target.words m ∧ m <:+: t := by
  rw [locate?, Option.isSome_map]
  constructor
  · intro h
    obtain ⟨r, hr⟩ := Option.isSome_iff_exists.mp h
    obtain ⟨hne, hmem⟩ := mem_all_of_find? hr
    obtain ⟨p, m, q, ht, hm, -⟩ :=
      exists_of_mem_all hne (fun _ hw => Text.ne_nil_of_mem_words hw) hmem
    rw [text_ofText] at ht
    exact ⟨hne, m, hm, p, q, by rw [ht, List.append_assoc]⟩
  · rintro ⟨hne, m, hm, ht⟩
    have hall := all_ne_nil hne (fun _ hw => Text.ne_nil_of_mem_words hw) hm ht
    have hfew : ¬ (s.target.words = [] ∨ maxWords < s.target.words.length) :=
      not_or.mpr ⟨hne, Nat.not_lt.mpr hs⟩
    simp only [find?, Bool.or_eq_true, decide_eq_true_eq, if_neg hfew, text_ofText]
    rwa [isSome_best?]

/-- The three words are found with a template in a gap between them; the word in the middle belongs
to no gap. -/
theorem isSome_locate?_linkedWords :
    (∃ m, Matches ["cats".toList, "and".toList, "dogs".toList] m ∧ m <:+: linkedWords) ∧
      ¬ ∃ m, Matches ["cats".toList, "dogs".toList] m ∧ m <:+: linkedWords := by
  have hfound := (isSome_locate? (s := ⟨[], "cats and dogs".toList, []⟩) (by decide +kernel)
    linkedWords).mp (by decide +kernel)
  have hmissed := (isSome_locate? (s := ⟨[], "cats dogs".toList, []⟩) (by decide +kernel)
    linkedWords).not.mp (by decide +kernel)
  have hthree : (⟨[], "cats and dogs".toList, []⟩ : Selection).target.words =
      ["cats".toList, "and".toList, "dogs".toList] := by decide +kernel
  have htwo : (⟨[], "cats dogs".toList, []⟩ : Selection).target.words =
      ["cats".toList, "dogs".toList] := by decide +kernel
  rw [hthree] at hfound
  rw [htwo] at hmissed
  exact ⟨hfound.2, fun h => hmissed ⟨by simp, h⟩⟩

/-- The words that are found end inside a cluster, and the span leaves out what they have of it. -/
theorem locate?_cuts_cluster :
    let s : Selection := ⟨[], "cafe".toList, []⟩
    let d := ofText "cafe\u0301".toList
    s.find? d = some ⟨0, 4⟩ ∧ d.text.slice 0 4 = "cafe".toList ∧
      s.locate? d = some ⟨0, 3⟩ ∧ d.slice ⟨0, 3⟩ = "caf".toList ∧
      ¬ d.text.slice 0 4 <:+: d.slice ⟨0, 3⟩ := by
  decide +kernel

end Selection

end Wikitext
