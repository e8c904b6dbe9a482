import Wikitext.Proofs.Segmentation

/-! Cluster offsets and byte offsets. The boundaries of a document increase, so a boundary is found
again from the number of boundaries up to it, and what is reported in clusters is the text that was
found in bytes. -/

namespace Wikitext

theorem Text.prefix_of_byteLength_le {s t u : Text} (hs : s <+: u) (ht : t <+: u)
    (h : s.byteLength ≤ t.byteLength) : s <+: t := by
  rcases List.prefix_or_prefix_of_prefix hs ht with h' | ⟨v, rfl⟩
  · exact h'
  · have hv : v = [] := by
      rw [byteLength_append] at h
      exact eq_nil_of_byteLength_eq_zero (by omega)
    simp [hv]

/-- Between two places between characters stands what is sliced there. -/
theorem Text.eq_append_slice {t p s : Text} (hp : p <+: t) (hs : s <+: t)
    (h : p.byteLength ≤ s.byteLength) : s = p ++ t.slice p.byteLength s.byteLength := by
  obtain ⟨m, rfl⟩ := prefix_of_byteLength_le hp hs h
  obtain ⟨q, rfl⟩ := hs
  rw [List.append_assoc, byteLength_append, slice_append]

namespace Cell

theorem boundariesOnto_eq (found : List Nat) (pos : Nat) (cells : List Cell) :
    boundariesOnto found pos cells = found.reverse ++ boundariesOnto [] pos cells := by
  induction cells generalizing found pos with
  | nil => simp [boundariesOnto]
  | cons a r ih =>
    rw [boundariesOnto, boundariesOnto, ih, ih (if a.opens then [pos] else [])]
    split <;> simp

theorem pairwise_boundariesOnto (pos : Nat) (cells : List Cell) :
    (boundariesOnto [] pos cells).Pairwise (· < ·) := by
  induction cells generalizing pos with
  | nil => simp [boundariesOnto]
  | cons a r ih =>
    have hlater : ∀ k ∈ boundariesOnto [] (pos + a.char.utf8Size) r, pos < k := by
      intro k hk
      have hpos := a.char.utf8Size_pos
      rcases mem_boundariesOnto.mp hk with hk | ⟨x, y, -, -, rfl⟩
      · exact absurd hk List.not_mem_nil
      · omega
    rw [boundariesOnto, boundariesOnto_eq]
    split
    · exact List.pairwise_cons.mpr ⟨hlater, ih _⟩
    · exact ih _

end Cell

theorem countP_le_getElem {xs : List Nat} (h : xs.Pairwise (· < ·)) {i : Nat}
    (hi : i < xs.length) : xs.countP (· ≤ xs[i]) = i + 1 := by
  induction xs generalizing i with
  | nil => cases hi
  | cons x xs ih =>
    obtain ⟨hx, hxs⟩ := List.pairwise_cons.mp h
    cases i with
    | zero =>
      have hzero : xs.countP (· ≤ x) = 0 := by
        apply List.countP_eq_zero.mpr
        intro a ha
        simpa using hx a ha
      rw [List.getElem_cons_zero, List.countP_cons_of_pos (by simp), hzero]
    | succ i =>
      have hi' : i < xs.length := Nat.lt_of_succ_lt_succ hi
      have hle : x ≤ xs[i] := Nat.le_of_lt (hx _ (List.getElem_mem hi'))
      rw [List.getElem_cons_succ, List.countP_cons_of_pos (by simpa using hle), ih hxs hi']

/-- In an increasing list the entries up to a number end with the greatest of them. -/
theorem exists_getElem?_countP_le {xs : List Nat} {b : Nat} (h : xs.Pairwise (· < ·))
    (hb : ∃ a ∈ xs, a ≤ b) : ∃ c ∈ xs, xs[xs.countP (· ≤ b) - 1]? = some c ∧ c ≤ b ∧
      ∀ a ∈ xs, a ≤ b → a ≤ c := by
  induction xs with
  | nil => simp at hb
  | cons x xs ih =>
    obtain ⟨hx, hxs⟩ := List.pairwise_cons.mp h
    have hle : x ≤ b := by
      obtain ⟨a, ha, hab⟩ := hb
      rcases List.mem_cons.mp ha with rfl | ha
      · exact hab
      · exact Nat.le_trans (Nat.le_of_lt (hx a ha)) hab
    rw [List.countP_cons_of_pos (by simpa using hle), Nat.add_sub_cancel]
    by_cases hmore : ∃ a ∈ xs, a ≤ b
    · obtain ⟨c, hc, hget, hcb, hmax⟩ := ih hxs hmore
      have hpos : 0 < xs.countP (· ≤ b) := by
        obtain ⟨a, ha, hab⟩ := hmore
        exact List.countP_pos_iff.mpr ⟨a, ha, by simpa using hab⟩
      refine ⟨c, List.mem_cons_of_mem _ hc, ?_, hcb, fun a ha hab => ?_⟩
      · rwa [← Nat.sub_add_cancel hpos, List.getElem?_cons_succ]
      · rcases List.mem_cons.mp ha with rfl | ha
        · exact Nat.le_of_lt (hx c hc)
        · exact hmax a ha hab
    · have hzero : xs.countP (· ≤ b) = 0 := by
        apply List.countP_eq_zero.mpr
        intro a ha hab
        exact hmore ⟨a, ha, by simpa using hab⟩
      refine ⟨x, List.mem_cons_self, by rw [hzero]; rfl, hle, fun a ha hab => ?_⟩
      rcases List.mem_cons.mp ha with rfl | ha
      · exact Nat.le_refl _
      · exact absurd ⟨a, ha, hab⟩ hmore

namespace Document

theorem mem_boundaries {d : Document} {b : Nat} : b ∈ d.boundaries ↔
    ∃ x y, d.cells = x ++ y ∧ Cell.atBoundary y = true ∧ (Cell.chars x).byteLength = b := by
  rw [d.boundaries_eq, Cell.boundaries, Cell.mem_boundariesOnto]
  constructor
  · rintro (h | ⟨x, y, he, hy, rfl⟩)
    · exact absurd h List.not_mem_nil
    · exact ⟨x, y, he, hy, (Nat.zero_add _).symm⟩
  · rintro ⟨x, y, he, hy, rfl⟩
    exact .inr ⟨x, y, he, hy, (Nat.zero_add _).symm⟩

theorem isBoundary_iff {d : Document} {b : Nat} : d.isBoundary b = true ↔
    ∃ x y, d.cells = x ++ y ∧ Cell.atBoundary y = true ∧ (Cell.chars x).byteLength = b := by
  rw [isBoundary, List.contains_iff_mem, mem_boundaries]

theorem exists_prefix_of_isBoundary {d : Document} {b : Nat} (h : d.isBoundary b = true) :
    ∃ p : Text, p <+: d.text ∧ p.byteLength = b := by
  obtain ⟨x, y, hxy, -, rfl⟩ := isBoundary_iff.mp h
  refine ⟨Cell.chars x, ⟨Cell.chars y, ?_⟩, rfl⟩
  rw [← Cell.chars_append, ← hxy, d.cells_eq, Cell.chars_ofText]

theorem isBoundary_cut {t : Text} {x y : List Cell} (h : Cell.ofText t = x ++ y) :
    (ofText t).isBoundary (Cell.chars x).byteLength = Cell.atBoundary y := by
  have ht : t = Cell.chars x ++ Cell.chars y := by
    rw [← Cell.chars_append, ← h, Cell.chars_ofText]
  have hb := isBoundary_append (Cell.chars x) (Cell.chars y)
  rw [← ht, Text.parted_of_ofText_eq_append h] at hb
  exact Bool.eq_iff_iff.mpr hb

theorem isBoundary_byteLength (d : Document) : d.isBoundary d.text.byteLength = true := by
  refine isBoundary_iff.mpr ⟨d.cells, [], (List.append_nil _).symm, rfl, ?_⟩
  rw [d.cells_eq, Cell.chars_ofText]

theorem isBoundary_byteAt (d : Document) (n : Nat) : d.isBoundary (d.byteAt n) = true := by
  rw [byteAt]
  split
  · rename_i b hb
    exact List.contains_iff_mem.mpr (List.mem_of_getElem? hb)
  · exact d.isBoundary_byteLength

theorem isBoundary_zero (d : Document) : d.isBoundary 0 = true := by
  refine isBoundary_iff.mpr ⟨[], d.cells, rfl, ?_, rfl⟩
  rw [d.cells_eq]
  exact Cell.atBoundary_ofText d.text

theorem pairwise_boundaries (d : Document) : d.boundaries.Pairwise (· < ·) := by
  rw [d.boundaries_eq]
  exact Cell.pairwise_boundariesOnto 0 d.cells

/-- A place is reported as the last boundary up to it. -/
theorem byteAt_clusterAt_le (d : Document) (b : Nat) : d.byteAt (d.clusterAt b) ≤ b ∧
    ∀ c, d.isBoundary c = true → c ≤ b → c ≤ d.byteAt (d.clusterAt b) := by
  obtain ⟨c, -, hget, hle, hmax⟩ := exists_getElem?_countP_le d.pairwise_boundaries
    ⟨0, List.contains_iff_mem.mp d.isBoundary_zero, Nat.zero_le b⟩
  have hbyte : d.byteAt (d.clusterAt b) = c := by rw [byteAt, clusterAt, hget]
  rw [hbyte]
  exact ⟨hle, fun a ha hab => hmax a (List.contains_iff_mem.mp ha) hab⟩

theorem byteAt_clusterAt {d : Document} {b : Nat} (h : d.isBoundary b = true) :
    d.byteAt (d.clusterAt b) = b := by
  obtain ⟨hle, hmax⟩ := d.byteAt_clusterAt_le b
  exact Nat.le_antisymm hle (hmax b h (Nat.le_refl b))

theorem clusterAt_mono (d : Document) {b c : Nat} (h : b ≤ c) : d.clusterAt b ≤ d.clusterAt c := by
  apply Nat.sub_le_sub_right
  apply List.countP_mono_left
  intro n _ hn
  simp only [decide_eq_true_eq] at hn ⊢
  omega

theorem stop_spanOf (d : Document) {r : ByteRange} (h : r.start ≤ r.stop) :
    (d.spanOf r).stop = d.clusterAt r.stop := by
  have hmono := d.clusterAt_mono h
  simp only [spanOf, Span.stop]
  omega

theorem bytesOf_spanOf {d : Document} {r : ByteRange} (h : r.start ≤ r.stop)
    (hstart : d.isBoundary r.start = true) (hstop : d.isBoundary r.stop = true) :
    d.bytesOf (d.spanOf r) = r := by
  rw [bytesOf, d.stop_spanOf h, byteAt_clusterAt hstop, spanOf, byteAt_clusterAt hstart]

theorem slice_spanOf {d : Document} {r : ByteRange} (h : r.start ≤ r.stop)
    (hstart : d.isBoundary r.start = true) (hstop : d.isBoundary r.stop = true) :
    d.slice (d.spanOf r) = d.text.slice r.start r.stop := by
  have hbytes := bytesOf_spanOf h hstart hstop
  rw [slice, show d.byteAt (d.spanOf r).offset = r.start from congrArg ByteRange.start hbytes,
    show d.byteAt (d.spanOf r).stop = r.stop from congrArg ByteRange.stop hbytes]

theorem length_boundaries (d : Document) : d.boundaries.length = d.clusterCount + 1 := by
  have hpos := List.length_pos_of_mem (List.contains_iff_mem.mp d.isBoundary_zero)
  rw [clusterCount]
  omega

theorem byteAt_of_lt {d : Document} {n : Nat} (h : n < d.boundaries.length) :
    d.byteAt n = d.boundaries[n] := by
  rw [byteAt, List.getElem?_eq_getElem h]

theorem le_byteLength {d : Document} {b : Nat} (h : d.isBoundary b = true) :
    b ≤ d.text.byteLength := by
  obtain ⟨p, ⟨q, hq⟩, rfl⟩ := exists_prefix_of_isBoundary h
  rw [← hq, Text.byteLength_append]
  exact Nat.le_add_right _ _

theorem byteAt_mono (d : Document) {m n : Nat} (h : m ≤ n) : d.byteAt m ≤ d.byteAt n := by
  by_cases hn : n < d.boundaries.length
  · rcases Nat.eq_or_lt_of_le h with rfl | hlt
    · exact Nat.le_refl _
    · rw [byteAt_of_lt (Nat.lt_trans hlt hn), byteAt_of_lt hn]
      exact Nat.le_of_lt (List.pairwise_iff_getElem.mp d.pairwise_boundaries _ _ _ _ hlt)
  · have hend : d.byteAt n = d.text.byteLength := by
      rw [byteAt, List.getElem?_eq_none (Nat.le_of_not_lt hn)]
    rw [hend]
    exact le_byteLength (d.isBoundary_byteAt m)

theorem clusterAt_le (d : Document) (b : Nat) : d.clusterAt b ≤ d.clusterCount :=
  Nat.sub_le_sub_right List.countP_le_length 1

theorem byteAt_of_clusterCount_le {d : Document} {n : Nat} (h : d.clusterCount ≤ n) :
    d.byteAt n = d.text.byteLength := by
  apply Nat.le_antisymm (le_byteLength (d.isBoundary_byteAt n))
  rw [← byteAt_clusterAt d.isBoundary_byteLength]
  exact d.byteAt_mono (Nat.le_trans (d.clusterAt_le _) h)

theorem clusterAt_byteAt_of_le {d : Document} {n : Nat} (h : n ≤ d.clusterCount) :
    d.clusterAt (d.byteAt n) = n := by
  have hn : n < d.boundaries.length := by
    rw [length_boundaries]
    exact Nat.lt_succ_of_le h
  rw [clusterAt, byteAt_of_lt hn, countP_le_getElem d.pairwise_boundaries hn, Nat.add_sub_cancel]

theorem clusterAt_byteAt (d : Document) (n : Nat) :
    d.clusterAt (d.byteAt n) = min n d.clusterCount := by
  rcases Nat.le_total n d.clusterCount with h | h
  · rw [clusterAt_byteAt_of_le h, Nat.min_eq_left h]
  · rw [byteAt_of_clusterCount_le h, ← byteAt_of_clusterCount_le (Nat.le_refl _),
      clusterAt_byteAt_of_le (Nat.le_refl _), Nat.min_eq_right h]

theorem byteAt_le_iff {d : Document} {n : Nat} (h : n ≤ d.clusterCount) (b : Nat) :
    d.byteAt n ≤ b ↔ n ≤ d.clusterAt b := by
  constructor
  · intro hle
    rw [← clusterAt_byteAt_of_le h]
    exact d.clusterAt_mono hle
  · intro hle
    exact Nat.le_trans (d.byteAt_mono hle) (d.byteAt_clusterAt_le b).1

theorem clusterAt_lt_clusterAt {d : Document} {b c : Nat} (hc : d.isBoundary c = true)
    (h : b < c) : d.clusterAt b < d.clusterAt c := by
  rw [← Nat.not_le, ← byteAt_le_iff (d.clusterAt_le c), byteAt_clusterAt hc, Nat.not_le]
  exact h

/-- A later cluster than that of a byte begins behind it, or the text ends there. -/
theorem le_byteAt {d : Document} {b n : Nat} (hb : b ≤ d.text.byteLength)
    (hn : d.clusterAt b < n) : b ≤ d.byteAt n := by
  by_cases hcount : n ≤ d.clusterCount
  · have hbehind := mt (byteAt_le_iff hcount b).mp (by omega)
    omega
  · rw [byteAt_of_clusterCount_le (by omega)]
    exact hb

theorem clusterAt_succ {d : Document} {b : Nat} (h : d.isBoundary (b + 1) = true) :
    d.clusterAt (b + 1) = d.clusterAt b + 1 := by
  have hlt := clusterAt_lt_clusterAt h (Nat.lt_succ_self b)
  have hn : d.clusterAt b + 1 ≤ d.clusterCount := Nat.le_trans hlt (d.clusterAt_le _)
  have hbyte : d.byteAt (d.clusterAt b + 1) = b + 1 := by
    have hupper := (byteAt_le_iff hn (b + 1)).mpr hlt
    have hlower := mt (byteAt_le_iff hn b).mp (by omega)
    omega
  rw [← hbyte, clusterAt_byteAt_of_le hn]

theorem boundaries_eq_map_byteAt (d : Document) :
    d.boundaries = (List.range (d.clusterCount + 1)).map d.byteAt := by
  apply List.ext_getElem
  · rw [List.length_map, List.length_range, length_boundaries]
  · intro n hn _
    rw [List.getElem_map, List.getElem_range, byteAt_of_lt hn]

section

variable {d : Document} {a b c : Nat}

theorem exists_slice (ha : d.isBoundary a = true) (hb : d.isBoundary b = true) (hab : a ≤ b) :
    ∃ p q, d.text = p ++ (d.text.slice a b ++ q) ∧ p.byteLength = a ∧
      (p ++ d.text.slice a b).byteLength = b := by
  obtain ⟨p, hp, rfl⟩ := exists_prefix_of_isBoundary ha
  obtain ⟨s, hs, rfl⟩ := exists_prefix_of_isBoundary hb
  have hslice := Text.eq_append_slice hp hs hab
  obtain ⟨q, hq⟩ := hs
  exact ⟨p, q, by rw [← List.append_assoc, ← hslice, hq], rfl, by rw [← hslice]⟩

theorem slice_append_slice (ha : d.isBoundary a = true) (hb : d.isBoundary b = true)
    (hc : d.isBoundary c = true) (hab : a ≤ b) (hbc : b ≤ c) :
    d.text.slice a b ++ d.text.slice b c = d.text.slice a c := by
  obtain ⟨p, q, hpq, hp, hpb⟩ := exists_slice ha hb hab
  obtain ⟨r, s, hrs, hr, hrc⟩ := exists_slice hb hc hbc
  have hrest : p ++ d.text.slice a b = r := by
    have he : (p ++ d.text.slice a b) ++ q = r ++ (d.text.slice b c ++ s) := by
      rw [List.append_assoc, ← hpq, ← hrs]
    exact (Text.append_inj_of_byteLength he (hpb.trans hr.symm)).1
  generalize d.text.slice a b = u at *
  generalize d.text.slice b c = v at *
  subst hrest
  have hall := Text.slice_append p (u ++ v) s
  rw [List.append_assoc] at hrc
  rw [← Text.byteLength_append, hrc, hp, List.append_assoc u, ← List.append_assoc p, ← hrs] at hall
  exact hall.symm

end

/-- Byte offsets and cluster offsets of a text. The boundaries increase from the first byte to the
end; the cluster of a byte is the last that begins up to it, and where a cluster begins it is found
again; a range between boundaries is found again from its span. Every span, also one that runs past
the end, covers a piece of the text between two boundaries, and spans that adjoin cover adjoining
pieces. -/
theorem offsets_ofText (t : Text) :
    let d := ofText t
    (d.boundaries = (List.range (d.clusterCount + 1)).map d.byteAt ∧
      d.boundaries.Pairwise (· < ·) ∧ d.byteAt 0 = 0 ∧ d.byteAt d.clusterCount = t.byteLength) ∧
    (∀ b, d.clusterAt b ≤ d.clusterCount ∧
      ∀ n, n ≤ d.clusterCount → (d.byteAt n ≤ b ↔ n ≤ d.clusterAt b)) ∧
    (∀ n, d.clusterAt (d.byteAt n) = min n d.clusterCount) ∧
    (∀ r : ByteRange, r.start ≤ r.stop → d.isBoundary r.start = true →
      d.isBoundary r.stop = true → d.bytesOf (d.spanOf r) = r) ∧
    (∀ span, (d.bytesOf span).start ≤ (d.bytesOf span).stop ∧
      (d.bytesOf span).stop ≤ t.byteLength ∧ d.isBoundary (d.bytesOf span).start = true ∧
      d.isBoundary (d.bytesOf span).stop = true ∧
      ∃ p q, t = p ++ (d.slice span ++ q) ∧ p.byteLength = (d.bytesOf span).start ∧
        (p ++ d.slice span).byteLength = (d.bytesOf span).stop) ∧
    ∀ n l l', d.slice ⟨n, l⟩ ++ d.slice ⟨n + l, l'⟩ = d.slice ⟨n, l + l'⟩ := by
  intro d
  have hfirst : d.byteAt 0 = 0 :=
    Nat.le_zero.mp ((byteAt_le_iff (Nat.zero_le _) 0).mpr (Nat.zero_le _))
  refine ⟨⟨d.boundaries_eq_map_byteAt, d.pairwise_boundaries, hfirst,
    byteAt_of_clusterCount_le (Nat.le_refl _)⟩,
    fun b => ⟨d.clusterAt_le b, fun n hn => byteAt_le_iff hn b⟩, d.clusterAt_byteAt,
    fun r h hstart hstop => bytesOf_spanOf h hstart hstop, fun span => ?_, fun n l l' => ?_⟩
  · have hle : d.byteAt span.offset ≤ d.byteAt span.stop := d.byteAt_mono (Nat.le_add_right _ _)
    have hstart := d.isBoundary_byteAt span.offset
    have hstop := d.isBoundary_byteAt span.stop
    exact ⟨hle, le_byteLength hstop, hstart, hstop, exists_slice hstart hstop hle⟩
  · simp only [slice, Span.stop, ← Nat.add_assoc]
    exact slice_append_slice (d.isBoundary_byteAt n) (d.isBoundary_byteAt (n + l))
      (d.isBoundary_byteAt (n + l + l')) (d.byteAt_mono (Nat.le_add_right _ _))
      (d.byteAt_mono (Nat.le_add_right _ _))

end Document

end Wikitext
