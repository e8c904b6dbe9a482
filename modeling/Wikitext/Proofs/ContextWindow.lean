import Wikitext.Proofs.SelectionSpan

/-! The text that is read on either side of a candidate. It begins and ends at cluster boundaries,
found by counting clusters, while a candidate may begin or end inside a cluster. A place is counted
as the cluster that holds it, which begins up to it; but any later cluster begins behind it, so the
text that is read behind a candidate does begin before it ends. -/

namespace Wikitext

open Document Occurrence

/-- A range that begins and ends between characters. -/
def CharRange (t : Text) (r : ByteRange) : Prop :=
  ∃ p m q, t = p ++ (m ++ q) ∧ r = ⟨p.byteLength, p.byteLength + m.byteLength⟩

namespace Selection

theorem charRange_of_mem_all (s : Selection) {t : Text} {r : ByteRange}
    (h : r ∈ Occurrence.all s.target.words t) : CharRange t r := by
  have hne : s.target.words ≠ [] := by
    intro hnil
    rw [hnil, all_nil] at h
    cases h
  obtain ⟨p, m, q, ht, -, hr⟩ :=
    exists_of_mem_all hne (fun _ hw => Text.ne_nil_of_mem_words hw) h
  exact ⟨p, m, q, ht, hr⟩

section

variable {d : Document} {r : ByteRange} {p : Text}

/-- What is read before a candidate ends where the candidate begins. -/
theorem exists_before (hp : p <+: d.text) (hr : r.start = p.byteLength) :
    ∃ far, p = far ++ textBefore d r ∧
      far.byteLength = d.byteAt (d.clusterAt r.start - window) := by
  obtain ⟨far, hfar, hfirst⟩ :=
    exists_prefix_of_isBoundary (d.isBoundary_byteAt (d.clusterAt r.start - window))
  have hle : far.byteLength ≤ p.byteLength := by
    have hmono := d.byteAt_mono (Nat.sub_le (d.clusterAt r.start) window)
    have hcluster := (d.byteAt_clusterAt_le r.start).1
    omega
  refine ⟨far, ?_, hfirst⟩
  rw [textBefore, ← hfirst, hr]
  exact Text.eq_append_slice hfar hp hle

/-- What is read behind a candidate begins where the candidate ends. -/
theorem exists_after (hp : p <+: d.text) (hr : r.stop = p.byteLength) :
    ∃ rest, d.text = p ++ (textAfter d r ++ rest) ∧
      (p ++ textAfter d r).byteLength = d.byteAt (d.clusterAt r.stop + window) := by
  obtain ⟨s, hs, hlast⟩ :=
    exists_prefix_of_isBoundary (d.isBoundary_byteAt (d.clusterAt r.stop + window))
  have hle : p.byteLength ≤ s.byteLength := by
    have hend : r.stop ≤ d.text.byteLength := by
      obtain ⟨q, hq⟩ := hp
      rw [hr, ← hq, Text.byteLength_append]
      omega
    have hbehind := le_byteAt hend (Nat.lt_add_of_pos_right (by decide : 0 < window))
    omega
  have hafter : s = p ++ textAfter d r := by
    rw [textAfter, ← hlast, hr]
    exact Text.eq_append_slice hp hs hle
  obtain ⟨rest, hrest⟩ := hs
  exact ⟨rest, by rw [← List.append_assoc, ← hafter, hrest], by rw [← hafter, hlast]⟩

/-- What is read before a candidate is at most `window` clusters, and of the cluster in which the
candidate begins what stands ahead of it. -/
theorem exists_whole (hp : p <+: d.text) (hr : r.start = p.byteLength) :
    let first := d.byteAt (d.clusterAt r.start - window)
    ∃ k part, k ≤ window ∧ d.clusterAt r.start = d.clusterAt first + k ∧
      textBefore d r = d.slice ⟨d.clusterAt first, k⟩ ++ part ∧
      ∀ b, d.isBoundary b = true → b ≤ r.start → b + part.byteLength ≤ r.start := by
  intro first
  obtain ⟨far, hbefore, hfirst⟩ := exists_before hp hr
  obtain ⟨s, hs, hnear⟩ :=
    exists_prefix_of_isBoundary (d.isBoundary_byteAt (d.clusterAt r.start))
  obtain ⟨hle, hmax⟩ := d.byteAt_clusterAt_le r.start
  have hfar : far <+: d.text := (hbefore ▸ List.prefix_append far _).trans hp
  have hcount := d.clusterAt_le r.start
  have hcluster : d.clusterAt first = d.clusterAt r.start - window :=
    clusterAt_byteAt_of_le (by omega)
  obtain ⟨k, hk⟩ : ∃ k, d.clusterAt r.start = d.clusterAt first + k := Nat.exists_eq_add_of_le
    (by omega)
  obtain ⟨part, hpart⟩ := Text.prefix_of_byteLength_le hs hp (by omega)
  have hwhole : s = far ++ d.slice ⟨d.clusterAt first, k⟩ := by
    rw [Document.slice, Span.stop, ← hk, hcluster, ← hfirst, ← hnear]
    refine Text.eq_append_slice hfar hs ?_
    rw [hfirst, hnear]
    exact d.byteAt_mono (Nat.sub_le _ _)
  refine ⟨k, part, by omega, hk, ?_, fun b hb hbr => ?_⟩
  · rw [← List.append_cancel_left_eq far, ← hbefore, ← hpart, ← List.append_assoc, ← hwhole]
  · have hb' := hmax b hb hbr
    rw [hr, ← hpart, Text.byteLength_append]
    omega

end

/-- The text that is read around a candidate, which begins and ends between characters but may do so
inside a cluster. The places it is read from and to are in order and within the text, so the text is
cut there and at both ends of the candidate; and what is read before it has at most `window` whole
clusters and a part of the cluster in which the candidate begins. -/
theorem windows_in_order (t : Text) :
    (∀ s : Selection, ∀ r ∈ Occurrence.all s.target.words t, CharRange t r) ∧
    ∀ r, CharRange t r →
      let d := ofText t
      let first := d.byteAt (d.clusterAt r.start - window)
      let last := d.byteAt (d.clusterAt r.stop + window)
      (first ≤ r.start ∧ r.stop ≤ last ∧ last ≤ t.byteLength) ∧
      (∃ far found rest, t = far ++ (textBefore d r ++ (found ++ (textAfter d r ++ rest))) ∧
        far.byteLength = first ∧ (far ++ textBefore d r).byteLength = r.start ∧
        (far ++ (textBefore d r ++ found)).byteLength = r.stop ∧
        (far ++ (textBefore d r ++ (found ++ textAfter d r))).byteLength = last) ∧
      ∃ k part, k ≤ window ∧ d.clusterAt r.start = d.clusterAt first + k ∧
        textBefore d r = d.slice ⟨d.clusterAt first, k⟩ ++ part ∧
        ∀ b, d.isBoundary b = true → b ≤ r.start → b + part.byteLength ≤ r.start := by
  refine ⟨fun s r hr => s.charRange_of_mem_all hr, fun r hr => ?_⟩
  intro d first last
  obtain ⟨p, m, q, ht, hr⟩ := hr
  have hstart : r.start = p.byteLength := by rw [hr]
  have hstop : r.stop = (p ++ m).byteLength := by rw [hr, Text.byteLength_append]
  have hp : p <+: d.text := ⟨m ++ q, ht.symm⟩
  have hpm : p ++ m <+: d.text := ⟨q, by rw [List.append_assoc, ← ht, text_ofText]⟩
  have hwhole := exists_whole hp hstart
  obtain ⟨far, rfl, hfirst⟩ := exists_before hp hstart
  obtain ⟨rest, hafter, hlast⟩ := exists_after hpm hstop
  simp only [List.append_assoc] at hafter hstop hlast
  have hlower : first ≤ r.start := by
    rw [hstart, Text.byteLength_append]
    omega
  have hupper : r.stop ≤ last := by
    simp only [Text.byteLength_append] at hstop hlast
    omega
  exact ⟨⟨hlower, hupper, le_byteLength (d.isBoundary_byteAt _)⟩,
    ⟨far, m, rest, hafter, hfirst, hstart.symm, hstop.symm, hlast⟩, hwhole⟩

/-- Two letters with marks; words that begin with the first mark end ahead of the second. -/
def markedLetters : Text :=
  "xe\u0301yo\u0308z".toList

theorem windows_in_order_markedLetters :
    let s : Selection := ⟨[], "\u0301yo".toList, []⟩
    let d := ofText markedLetters
    ⟨2, 6⟩ ∈ Occurrence.all s.target.words markedLetters ∧ CharRange markedLetters ⟨2, 6⟩ ∧
      d.isBoundary 2 = false ∧ d.isBoundary 6 = false ∧
      textBefore d ⟨2, 6⟩ = "xe".toList ∧ textAfter d ⟨2, 6⟩ = "\u0308z".toList ∧
      d.byteAt (d.clusterAt 2 - window) ≤ 2 ∧ 6 ≤ d.byteAt (d.clusterAt 6 + window) := by
  intro s d
  have hfound : ⟨2, 6⟩ ∈ Occurrence.all s.target.words markedLetters := by decide +kernel
  obtain ⟨hrange, hwindows⟩ := windows_in_order markedLetters
  have hr := hrange s _ hfound
  obtain ⟨⟨hlower, hupper, -⟩, -⟩ := hwindows _ hr
  exact ⟨hfound, hr, by decide +kernel, by decide +kernel, by decide +kernel, by decide +kernel,
    hlower, hupper⟩

end Selection

end Wikitext
