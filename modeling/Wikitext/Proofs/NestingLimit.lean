import Wikitext.Marker.Nesting
import Wikitext.Proofs.Tiling

/-! The limit on nesting. A step changes each depth by at most one, so the first step behind which
more is open than the limit is an opener that raises its depth to one above it. The places where two
limits are first exceeded lie in the order of the limits, in clusters as in bytes, for an opener
begins and ends at boundaries. -/

namespace Wikitext

open Step

namespace Depths

theorem within_iff {d : Depths} {limit : Nat} :
    d.within limit = true ↔ d.template ≤ limit ∧ d.link ≤ limit := by
  simp [within]

theorem within_mono {d : Depths} {m n : Nat} (h : m ≤ n) (hd : d.within m = true) :
    d.within n = true := by
  rw [within_iff] at hd ⊢
  omega

end Depths

/-- The step opens the template or the link that makes `n` of them. -/
def Step.Raises (s : Step) (n : Nat) : Prop :=
  s.kind = .templateOpen ∧ s.depths.template = n ∨ s.kind = .linkOpen ∧ s.depths.link = n

theorem Step.Raises.not_within {s : Step} {limit : Nat} (h : s.Raises (limit + 1)) :
    s.depths.within limit = false := by
  rw [Bool.eq_false_iff, ne_eq, Depths.within_iff]
  rintro ⟨htemplate, hlink⟩
  rcases h with ⟨-, h⟩ | ⟨-, h⟩ <;> omega

theorem Step.Raises.ne_text {s : Step} {n : Nat} (h : s.Raises n) : s.kind ≠ .text := by
  rcases h with ⟨h, -⟩ | ⟨h, -⟩ <;> simp [h]

/-- Only an opener leads above the limit, to one above it and with one depth alone. -/
theorem Depths.Counts.raises {e : Depths} {s : Step} {limit : Nat}
    (h : e.Counts s.kind s.depths) (he : e.within limit = true)
    (hs : s.depths.within limit = false) :
    s.Raises (limit + 1) ∧ s.depths.within (limit + 1) = true := by
  obtain ⟨k, x, d⟩ := s
  rw [within_iff] at he ⊢
  rw [← Bool.not_eq_true, within_iff] at hs
  simp only [Raises] at h hs ⊢
  cases h with
  | @templateOpen m n =>
    obtain ⟨hm, hn⟩ := he
    have hlimit : m = limit := by simp only at hs hm hn; omega
    exact ⟨.inl ⟨rfl, congrArg (· + 1) hlimit⟩, Nat.succ_le_succ hm, Nat.le_succ_of_le hn⟩
  | @linkOpen m n =>
    obtain ⟨hm, hn⟩ := he
    have hlimit : n = limit := by simp only at hs hm hn; omega
    exact ⟨.inr ⟨rfl, congrArg (· + 1) hlimit⟩, Nat.le_succ_of_le hm, Nat.succ_le_succ hn⟩
  | templateClose => exact absurd ⟨Nat.le_of_succ_le he.1, he.2⟩ hs
  | linkClose => exact absurd ⟨he.1, Nat.le_of_succ_le he.2⟩ hs
  | other => exact absurd he hs

namespace Document

/-- The step `s`, at the bytes `r`, is the first that raises a depth to `n`. -/
def FirstRaise (d : Document) (n : Nat) (r : ByteRange) (s : Step) : Prop :=
  s.Raises n ∧ ∃ us vs, d.stepsFrom 0 = us ++ (r, s) :: vs ∧ ∀ q ∈ us, ¬ q.2.Raises n

/-- The two clusters from the cluster `n` on are `c` each. -/
def HasPair (d : Document) (n : Nat) (c : Char) : Prop :=
  d.slice ⟨n, 1⟩ = [c] ∧ d.slice ⟨n + 1, 1⟩ = [c]

/-- `Exceeds d limit us s`: behind the steps `us` of the document, `s` is the first step that leaves
more open than the limit. -/
structure Exceeds (d : Document) (limit : Nat) (us : List Step) (s : Step) : Prop where
  steps : ∃ vs, d.steps = us ++ s :: vs
  within : ∀ a ∈ us, a.depths.within limit = true
  above : s.depths.within limit = false

theorem checkNesting_cases (d : Document) (limit : Nat) :
    d.checkNesting limit = .ok () ∧ (∀ s ∈ d.steps, s.depths.within limit = true) ∨
    ∃ us s, d.Exceeds limit us s ∧
      d.checkNesting limit = .error (.tooDeep (d.clusterAt (textOf us).byteLength) limit) := by
  let p : Step → Bool := fun s => s.depths.within limit
  have hsplit : d.steps.takeWhile p ++ d.steps.dropWhile p = d.steps :=
    List.takeWhile_append_dropWhile
  have hwithin : ∀ a ∈ d.steps.takeWhile p, p a = true := fun a ha => List.mem_takeWhile_imp ha
  rw [checkNesting]
  cases hrest : d.steps.dropWhile p with
  | nil =>
    rw [hrest, List.append_nil] at hsplit
    rw [hsplit] at hwithin
    exact .inl ⟨rfl, hwithin⟩
  | cons s vs =>
    have hs : p s = false := by
      have hhead := List.head_dropWhile_not (l := d.steps) p (by simp [hrest])
      simpa [hrest] using hhead
    rw [hrest] at hsplit
    exact .inr ⟨_, s, ⟨⟨vs, hsplit.symm⟩, hwithin, hs⟩, rfl⟩

theorem exists_exceeds {d : Document} {limit : Nat} {f : Failure}
    (h : d.checkNesting limit = .error f) :
    ∃ us s, d.Exceeds limit us s ∧ f = .tooDeep (d.clusterAt (textOf us).byteLength) limit := by
  rcases d.checkNesting_cases limit with ⟨hok, -⟩ | ⟨us, s, hex, herr⟩
  · rw [hok] at h
    cases h
  · rw [herr] at h
    cases h
    exact ⟨us, s, hex, rfl⟩

namespace Exceeds

variable {t : Text} {limit : Nat} {us : List Step} {s : Step}

theorem exists_stepsFrom (h : (ofText t).Exceeds limit us s) : ∃ r qs,
    (ofText t).stepsFrom 0 = place 0 us ++ (r, s) :: qs ∧ r.start = (textOf us).byteLength ∧
      r.stop = r.start + s.text.byteLength := by
  obtain ⟨vs, hvs⟩ := h.steps
  rw [stepsFrom_zero, hvs, place_append, Nat.zero_add, place]
  exact ⟨_, _, rfl, rfl, rfl⟩

/-- It is an opener, the first that raises a depth to one above the limit, and leads no further
above. -/
theorem exists_firstRaise (h : (ofText t).Exceeds limit us s) :
    ∃ r e, (r.start = (textOf us).byteLength ∧ r.stop = r.start + s.text.byteLength) ∧
      (ofText t).StepAt e r s ∧ (ofText t).FirstRaise (limit + 1) r s ∧
      s.depths.within (limit + 1) = true := by
  obtain ⟨r, qs, hplace, hr⟩ := h.exists_stepsFrom
  have htiles : (ofText t).Tiles .zero 0 ((ofText t).stepsFrom 0) t.byteLength := by
    rw [stepsFrom_zero]
    exact tiles_scanFrom (x := []) rfl .zero
  have hwithin : ∀ q ∈ place 0 us, q.2.depths.within limit = true :=
    fun q hq => h.within q.2 (mem_of_mem_place hq)
  obtain ⟨e, hat, hbefore⟩ := htiles.exists_stepAt hplace
  have he : e.within limit = true := by
    rcases hbefore with rfl | ⟨q, hq, rfl⟩
    · simp [Depths.zero, Depths.within]
    · exact hwithin q hq
  obtain ⟨hraises, hnext⟩ := hat.counts.raises he h.above
  refine ⟨r, e, hr, hat, ⟨hraises, _, _, hplace, fun q hq hraise => ?_⟩, hnext⟩
  have hnot := hraise.not_within
  rw [hwithin q hq] at hnot
  cases hnot

/-- The first step above a limit is in front of the first above a greater one, for it is only one
above its own. -/
theorem exists_append {d : Document} {m n : Nat} {us us' : List Step} {s s' : Step}
    (h : d.Exceeds m us s) (hs : s.depths.within (m + 1) = true) (hmn : m < n)
    (h' : d.Exceeds n us' s') : ∃ ws, us' = us ++ s :: ws := by
  have hne {a : Step} {l : Nat} (hl : l ≤ n) (ha : a.depths.within l = true) : a ≠ s' := by
    rintro rfl
    have habove := h'.above
    rw [Depths.within_mono hl ha] at habove
    cases habove
  obtain ⟨vs, hvs⟩ := h.steps
  obtain ⟨vs', hvs'⟩ := h'.steps
  rcases List.append_eq_append_iff.mp (hvs.symm.trans hvs') with ⟨ws, rfl, hrest⟩ | ⟨ws, rfl, hrest⟩
  · cases ws with
    | nil => exact absurd (List.cons.inj hrest).1 (hne hmn hs)
    | cons a ws =>
      obtain ⟨rfl, -⟩ := List.cons.inj hrest
      exact ⟨ws, rfl⟩
  · cases ws with
    | nil => exact absurd (List.cons.inj hrest).1.symm (hne hmn hs)
    | cons a ws =>
      have ha := h.within a (by simp)
      exact absurd (List.cons.inj hrest).1.symm (hne (Nat.le_of_lt hmn) ha)

theorem start_lt {m n : Nat} {us us' : List Step} {s s' : Step} (h : (ofText t).Exceeds m us s)
    (hmn : m < n) (h' : (ofText t).Exceeds n us' s') :
    (textOf us).byteLength < (textOf us').byteLength := by
  obtain ⟨r, e, ⟨-, hstop⟩, hat, -, hnext⟩ := h.exists_firstRaise
  obtain ⟨ws, rfl⟩ := h.exists_append hnext hmn h'
  have hpos := hat.nonempty
  simp only [textOf_append, textOf_cons, Text.byteLength_append]
  omega

end Exceeds

theorem slice_one {d : Document} {b : Nat} (h : d.isBoundary b = true)
    (h' : d.isBoundary (b + 1) = true) : d.slice ⟨d.clusterAt b, 1⟩ = d.text.slice b (b + 1) := by
  have hstop : d.byteAt (Span.stop ⟨d.clusterAt b, 1⟩) = b + 1 := by
    rw [Span.stop, ← clusterAt_succ h', byteAt_clusterAt h']
  rw [slice, hstop, byteAt_clusterAt h]

namespace StepAt

variable {t : Text} {e : Depths} {r : ByteRange} {s : Step}

/-- A step that writes a character of one byte twice is two clusters. -/
theorem hasPair {c : Char} (h : (ofText t).StepAt e r s) (hs : s.kind ≠ .text)
    (htext : s.text = [c, c]) (hc : BreakClass.of c = .other) (hsize : c.utf8Size = 1) :
    (ofText t).HasPair ((ofText t).clusterAt r.start) c := by
  obtain ⟨hstart, hstop⟩ := h.boundaries hs
  obtain ⟨p, q, ht, hp, hend⟩ := exists_slice hstart hstop (Nat.le_of_lt h.nonempty)
  rw [← h.text, htext] at ht hend
  change t = p ++ ([c, c] ++ q) at ht
  subst ht
  have hone : (p ++ [c]).byteLength = r.start + 1 := by simp [hp, hsize]
  have htwo : r.stop = r.start + 1 + 1 := by simp [← hend, hp, hsize]
  have hmiddle : (ofText (p ++ ([c, c] ++ q))).isBoundary (r.start + 1) = true := by
    have hparted := (isBoundary_append (p ++ [c]) (c :: q)).mpr (Text.parted_other_other hc hc)
    rw [hone, List.append_assoc] at hparted
    exact hparted
  rw [htwo] at hstop
  rw [HasPair, ← clusterAt_succ hmiddle, slice_one hstart hmiddle, slice_one hmiddle hstop]
  constructor
  · have hfirst := Text.slice_append p [c] (c :: q)
    rwa [hp, Text.byteLength_cons, hsize] at hfirst
  · have hsecond := Text.slice_append (p ++ [c]) [c] q
    rwa [hone, Text.byteLength_cons, hsize, List.append_assoc] at hsecond

theorem hasPair_of_raises {n : Nat} (h : (ofText t).StepAt e r s) (hs : s.Raises n) :
    s.kind = .templateOpen ∧ (ofText t).HasPair ((ofText t).clusterAt r.start) '{' ∨
      s.kind = .linkOpen ∧ (ofText t).HasPair ((ofText t).clusterAt r.start) '[' := by
  have htext := h.literal
  rcases hs with ⟨hk, -⟩ | ⟨hk, -⟩ <;> rw [hk] at htext
  · exact .inl ⟨hk, h.hasPair (by simp [hk]) (htext nofun nofun) rfl rfl⟩
  · exact .inr ⟨hk, h.hasPair (by simp [hk]) (htext nofun nofun) rfl rfl⟩

end StepAt

theorem checkNesting_eq_ok {t : Text} {limit : Nat} : (ofText t).checkNesting limit = .ok () ↔
    ∀ q ∈ (ofText t).stepsFrom 0, q.2.depths.template ≤ limit ∧ q.2.depths.link ≤ limit := by
  rcases (ofText t).checkNesting_cases limit with ⟨hok, hwithin⟩ | ⟨us, s, hex, herr⟩
  · refine iff_of_true hok fun q hq => ?_
    rw [stepsFrom_zero] at hq
    exact Depths.within_iff.mp (hwithin q.2 (mem_of_mem_place hq))
  · refine iff_of_false (by simp [herr]) fun h => ?_
    obtain ⟨r, qs, hplace, -⟩ := hex.exists_stepsFrom
    have hs := Depths.within_iff.mpr (h (r, s) (by simp [hplace]))
    rw [hex.above] at hs
    cases hs

/-- What the limit on nesting refuses. A text passes just when no step of the scan leaves more open
than the limit. Otherwise the cluster reported is the one with which the first step begins that
raises a depth to one above the limit, and it and the next are the two characters of an opener. A
greater limit passes more, and where it refuses as well it does so further on. -/
theorem checkNesting_ofText (t : Text) :
    let d := ofText t
    (∀ limit, d.checkNesting limit = .ok () ↔
      ∀ q ∈ d.stepsFrom 0, q.2.depths.template ≤ limit ∧ q.2.depths.link ≤ limit) ∧
    (∀ limit f, d.checkNesting limit = .error f → ∃ r s, d.FirstRaise (limit + 1) r s ∧
      f = .tooDeep (d.clusterAt r.start) limit ∧ d.byteAt (d.clusterAt r.start) = r.start ∧
      (s.kind = .templateOpen ∧ d.HasPair (d.clusterAt r.start) '{' ∨
        s.kind = .linkOpen ∧ d.HasPair (d.clusterAt r.start) '[')) ∧
    (∀ m n, m ≤ n → d.checkNesting m = .ok () → d.checkNesting n = .ok ()) ∧
    ∀ m n f g, m < n → d.checkNesting m = .error f → d.checkNesting n = .error g →
      ∃ i j, f = .tooDeep i m ∧ g = .tooDeep j n ∧ i < j := by
  intro d
  refine ⟨fun limit => checkNesting_eq_ok, fun limit f hf => ?_, fun m n hmn hm => ?_,
    fun m n f g hmn hf hg => ?_⟩
  · obtain ⟨us, s, hex, rfl⟩ := exists_exceeds hf
    obtain ⟨r, e, ⟨hstart, -⟩, hat, hfirst, -⟩ := hex.exists_firstRaise
    rw [← hstart]
    exact ⟨r, s, hfirst, rfl, byteAt_clusterAt (hat.boundaries hfirst.1.ne_text).1,
      hat.hasPair_of_raises hfirst.1⟩
  · rw [checkNesting_eq_ok] at hm ⊢
    intro q hq
    obtain ⟨htemplate, hlink⟩ := hm q hq
    exact ⟨Nat.le_trans htemplate hmn, Nat.le_trans hlink hmn⟩
  · obtain ⟨us, s, hex, rfl⟩ := exists_exceeds hf
    obtain ⟨us', s', hex', rfl⟩ := exists_exceeds hg
    obtain ⟨r, e, ⟨hstart, -⟩, hat, hfirst, -⟩ := hex'.exists_firstRaise
    have hboundary := (hat.boundaries hfirst.1.ne_text).1
    rw [hstart] at hboundary
    exact ⟨_, _, rfl, rfl, clusterAt_lt_clusterAt hboundary (hex.start_lt hmn hex')⟩

/-- A link in a link in a template, behind a character of two bytes. -/
def nestedLinks : Text :=
  "é\x7b\x7ba [[b [[c]]]]\x7d\x7d".toList

/-- The template is more than the limit 0 passes and the inner link more than the limit 1. -/
theorem checkNesting_ofText_nestedLinks :
    let d := ofText nestedLinks
    d.checkNesting 0 = .error (.tooDeep 1 0) ∧ d.checkNesting 2 = .ok () ∧
    ∃ r s, d.FirstRaise 2 r s ∧ d.checkNesting 1 = .error (.tooDeep (d.clusterAt r.start) 1) ∧
      d.clusterAt r.start = 9 ∧ r.start = 10 := by
  intro d
  obtain ⟨hok, herr, -, -⟩ := checkNesting_ofText nestedLinks
  have hone : d.checkNesting 1 = .error (.tooDeep 9 1) := by decide +kernel
  obtain ⟨r, s, hfirst, hf, hbyte, -⟩ := herr 1 _ hone
  have hcluster : 9 = d.clusterAt r.start := (Failure.tooDeep.inj hf).1
  refine ⟨by decide +kernel, (hok 2).mpr (by decide +kernel), r, s, hfirst, ?_, hcluster.symm, ?_⟩
  · rw [← hcluster, hone]
  · rw [← hbyte, ← hcluster]
    decide +kernel

end Document

end Wikitext
