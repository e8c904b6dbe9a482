import Wikitext.Proofs.AltPlacing

/-! Links that are found by their text. What an edit puts into one link holds no bracket, so no copy
of the text of another link begins or ends in it; the copies of a text that does not hold the
alternative text are those of before the edit, moved. -/

namespace Wikitext

open Step OuterLink Document

namespace Text

theorem breakOnFrom_length_le {pattern passed t p q r s : Text}
    (h : breakOnFrom pattern passed t = some (p, q)) (ht : t = r ++ (pattern ++ s)) :
    p.length ≤ passed.length + r.length := by
  induction t generalizing passed r with
  | nil =>
    obtain ⟨rfl, hnil⟩ := List.append_eq_nil_iff.mp ht.symm
    obtain ⟨rfl, rfl⟩ := List.append_eq_nil_iff.mp hnil
    rw [breakOnFrom, if_pos rfl] at h
    cases h
    simp
  | cons c t ih =>
    rw [breakOnFrom] at h
    by_cases hp : pattern.isPrefixOf (c :: t) = true
    · rw [if_pos hp] at h
      cases h
      simp
    · rw [if_neg hp] at h
      cases r with
      | nil =>
        refine absurd (List.isPrefixOf_iff_prefix.mpr ?_) hp
        rw [ht]
        exact List.prefix_append _ _
      | cons c' r =>
        obtain ⟨rfl, ht'⟩ := List.cons.inj ht
        have hle := ih h ht'
        simp only [List.length_cons] at hle ⊢
        omega

theorem byteLength_le_of_breakOn? {pattern t p q r s : Text} (h : t.breakOn? pattern = some (p, q))
    (ht : t = r ++ (pattern ++ s)) : p.byteLength ≤ r.byteLength := by
  have hle : p.length ≤ r.length := by simpa using breakOnFrom_length_le h ht
  have hp : p <+: r := by
    have hpt : p <+: t := by
      rw [breakOn?_eq_append h, List.append_assoc]
      exact List.prefix_append _ _
    have hrt : r <+: t := by
      rw [ht]
      exact List.prefix_append _ _
    exact List.prefix_of_prefix_length_le hpt hrt hle
  obtain ⟨u, rfl⟩ := hp
  rw [byteLength_append]
  exact Nat.le_add_right _ _

theorem exists_breakOn? {pattern t p q : Text} (ht : t = p ++ (pattern ++ q)) :
    ∃ u v, t.breakOn? pattern = some (u, v) := by
  have hfrom (passed : Text) : ∃ u v, breakOnFrom pattern passed t = some (u, v) := by
    subst ht
    induction p generalizing passed with
    | nil =>
      rw [List.nil_append]
      generalize hr : pattern ++ q = t
      cases t with
      | nil =>
        rw [breakOnFrom, if_pos (List.append_eq_nil_iff.mp hr).1]
        exact ⟨_, _, rfl⟩
      | cons c r =>
        have hp : pattern.isPrefixOf (c :: r) = true := by
          rw [← hr, List.isPrefixOf_iff_prefix]
          exact List.prefix_append _ _
        rw [breakOnFrom, if_pos hp]
        exact ⟨_, _, rfl⟩
    | cons c p ih =>
      rw [List.cons_append, breakOnFrom]
      split
      · exact ⟨_, _, rfl⟩
      · exact ih (c :: passed)
  exact hfrom []

/-- A copy of a text in brackets lies on one side of what holds no bracket, unless it holds all
of it. -/
theorem copy_cases {alt m p q a w b r : Text} (h : p ++ (m ++ q) = a ++ (w ++ b))
    (hm : m = '[' :: r ++ [']']) (halt : alt <:+: w) (hno : ¬ alt <:+: m)
    (hw : ∀ c ∈ w, c ≠ '[' ∧ c ≠ ']') :
    (∃ s, a = p ++ (m ++ s)) ∨ ∃ s, p = a ++ (w ++ s) ∧ b = s ++ (m ++ q) := by
  rcases List.append_eq_append_iff.mp h with ⟨s, ha, hs⟩ | ⟨s, hp, hs⟩
  · rcases List.append_eq_append_iff.mp hs with ⟨k, hk, -⟩ | ⟨k, hk, hwk⟩
    · exact .inl ⟨k, by rw [ha, hk]⟩
    · rcases List.eq_nil_or_concat k with rfl | ⟨k, c, rfl⟩
      · exact .inl ⟨[], by rw [ha, hk]; simp⟩
      · -- The copy ends in `w` or behind it.
        rw [List.concat_eq_append] at hk hwk
        have hc : c = ']' := by
          have hlast := congrArg List.getLast? (hk.symm.trans hm)
          rw [← List.append_assoc, List.getLast?_concat, List.getLast?_concat] at hlast
          exact Option.some.inj hlast
        rcases List.append_eq_append_iff.mp hwk with ⟨k', hk', -⟩ | ⟨k', hk', -⟩
        · refine absurd (halt.trans ?_) hno
          rw [hk, hk']
          exact ⟨s, k', by simp⟩
        · exact absurd hc (hw c (by simp [hk'])).2
  · rcases List.append_eq_append_iff.mp hs with ⟨k, hk, hb⟩ | ⟨k, hk, hmk⟩
    · exact .inr ⟨k, by rw [hp, hk], hb⟩
    · cases k with
      | nil => exact .inr ⟨[], by rw [hp, hk]; simp, by simpa using hmk.symm⟩
      | cons c k =>
        have hc : '[' = c := by
          rw [hm] at hmk
          exact (List.cons.inj hmk).1
        exact absurd hc.symm (hw c (by simp [hk])).1

end Text

namespace Document

/-- Every copy of `m` with a link of this text at it or behind it is such a link. -/
def Solely (t m : Text) : Prop :=
  ∀ p q, t = p ++ (m ++ q) → ∀ l ∈ (ofText t).outerLinks, l.text = m →
    p.byteLength ≤ l.start → ∃ k ∈ (ofText t).outerLinks, k.start = p.byteLength ∧ k.text = m

theorem solely_iff {t m : Text} : Solely t m ↔ ∀ i ∈ List.range (t.length + 1), m <+: t.drop i →
    ∀ l ∈ (ofText t).outerLinks, l.text = m → Text.byteLength (t.take i) ≤ l.start →
      ∃ k ∈ (ofText t).outerLinks, k.start = Text.byteLength (t.take i) ∧ k.text = m := by
  constructor
  · rintro h i - ⟨q, hq⟩
    apply h (t.take i) q
    rw [hq, List.take_append_drop]
  · intro h p q ht
    have htake : t.take p.length = p := by rw [ht, List.take_left]
    have hdrop : t.drop p.length = m ++ q := by rw [ht, List.drop_left]
    have hi := h p.length (List.mem_range.mpr (by rw [ht, List.length_append]; omega))
    rw [htake, hdrop] at hi
    exact hi (List.prefix_append _ _)

instance (t m : Text) : Decidable (Solely t m) :=
  decidable_of_iff _ solely_iff.symm

theorem Solely.exists_first {t m : Text} {l : OuterLink} (h : Solely t m)
    (hl : l ∈ (ofText t).outerLinks) (hm : l.text = m) : ∃ p q k, t.breakOn? m = some (p, q) ∧
      k ∈ (ofText t).outerLinks ∧ k.start = p.byteLength ∧ k.text = m := by
  obtain ⟨x, y, z, _, _, _, _, hp⟩ := exists_placed_of_mem hl
  have hcopy : t = Cell.chars x ++ (m ++ Cell.chars z) := by
    rw [← hm, hp.text_eq]
    exact hp.chars_eq
  obtain ⟨p, q, hbreak⟩ := Text.exists_breakOn? hcopy
  have hle := Text.byteLength_le_of_breakOn? hbreak hcopy
  rw [← hp.start_eq] at hle
  have happ := Text.breakOn?_eq_append hbreak
  rw [List.append_assoc] at happ
  obtain ⟨k, hk, hstart, hkm⟩ := h p q happ l hl hm hle
  exact ⟨p, q, k, hbreak, hk, hstart, hkm⟩

/-- `Grown alt t t' before l l' behind x u w v z`: in the text `t` the link `l` is `u ++ v`, behind
`x` and before `z`; in `t'` it is `l'`, with `w` put in, which holds `alt` and no bracket. -/
structure Grown (alt t t' : Text) (before : List OuterLink) (l l' : OuterLink)
    (behind : List OuterLink) (x u w v z : Text) : Prop where
  text_eq : t = (x ++ u) ++ (v ++ z)
  text_eq' : t' = (x ++ u) ++ (w ++ (v ++ z))
  links : (ofText t).outerLinks = before ++ l :: behind
  links' : (ofText t').outerLinks = before ++ l' :: behind.map (shift w.byteLength)
  start : l.start = x.byteLength
  text : l.text = u ++ v
  text' : l'.text = u ++ (w ++ v)
  alt_infix : alt <:+: w
  bare : ∀ c ∈ w, c ≠ '[' ∧ c ≠ ']'
  left : u ≠ []
  right : v ≠ []

namespace Grown

variable {alt t t' : Text} {before behind : List OuterLink} {l l' : OuterLink} {x u w v z m : Text}

theorem text_ne (h : Grown alt t t' before l l' behind x u w v z) (hno : ¬ alt <:+: m) :
    l'.text ≠ m := by
  rintro rfl
  refine hno (h.alt_infix.trans ?_)
  rw [h.text']
  exact ⟨u, v, by simp⟩

theorem mem_links' (h : Grown alt t t' before l l' behind x u w v z) (hno : ¬ alt <:+: m)
    {k : OuterLink} (hk : k ∈ (ofText t').outerLinks) (hm : k.text = m) :
    k ∈ before ∨ ∃ k₀ ∈ behind, shift w.byteLength k₀ = k := by
  rw [h.links', List.mem_append, List.mem_cons, List.mem_map] at hk
  rcases hk with hk | rfl | hk
  · exact .inl hk
  · exact absurd hm (h.text_ne hno)
  · exact .inr hk

theorem stop_le (h : Grown alt t t' before l l' behind x u w v z) :
    (∀ k ∈ before, k.start + k.text.byteLength ≤ x.byteLength) ∧
      ∀ k ∈ behind, x.byteLength + u.byteLength + v.byteLength ≤ k.start := by
  constructor
  · intro k hk
    rw [← h.start]
    exact stop_le_of_outerLinks h.links hk
  · intro k hk
    obtain ⟨b, a, rfl⟩ := List.append_of_mem hk
    have hlinks := h.links
    rw [← List.cons_append, ← List.append_assoc] at hlinks
    have hmem : l ∈ before ++ l :: b := by simp
    have hle := stop_le_of_outerLinks hlinks hmem
    have hstop : l.bytes.stop = l.start + l.text.byteLength := rfl
    rw [hstop, h.start, h.text, Text.byteLength_append] at hle
    omega

theorem byteLength_pos (h : Grown alt t t' before l l' behind x u w v z) :
    0 < u.byteLength ∧ 0 < v.byteLength := by
  constructor
  · exact Nat.pos_of_ne_zero fun he => h.left (Text.eq_nil_of_byteLength_eq_zero he)
  · exact Nat.pos_of_ne_zero fun he => h.right (Text.eq_nil_of_byteLength_eq_zero he)

theorem exists_link_ahead (h : Grown alt t t' before l l' behind x u w v z) (hno : ¬ alt <:+: m)
    (hs : Solely t m) {p s : Text} (hxu : x ++ u = p ++ (m ++ s)) {k : OuterLink}
    (hk : k ∈ (ofText t').outerLinks) (hm : k.text = m) (hle : p.byteLength ≤ k.start) :
    ∃ k ∈ (ofText t').outerLinks, k.start = p.byteLength ∧ k.text = m := by
  have hbehind := h.stop_le.2
  obtain ⟨hu, hv⟩ := h.byteLength_pos
  have hlen := congrArg Text.byteLength hxu
  simp only [Text.byteLength_append] at hlen
  have hcopy : t = p ++ (m ++ (s ++ (v ++ z))) := by
    rw [h.text_eq, hxu]
    simp only [List.append_assoc]
  obtain ⟨k₀, hk₀, hm₀, hle₀⟩ : ∃ k₀ ∈ (ofText t).outerLinks, k₀.text = m ∧
      p.byteLength ≤ k₀.start := by
    rcases h.mem_links' hno hk hm with hk | ⟨k₀, hk₀, rfl⟩
    · exact ⟨k, by rw [h.links]; simp [hk], hm, hle⟩
    · have hstart := hbehind k₀ hk₀
      exact ⟨k₀, by rw [h.links]; simp [hk₀], hm, by omega⟩
  obtain ⟨k₁, hk₁, hstart, hm₁⟩ := hs _ _ hcopy k₀ hk₀ hm₀ hle₀
  rw [h.links, List.mem_append, List.mem_cons] at hk₁
  rcases hk₁ with hk₁ | rfl | hk₁
  · exact ⟨k₁, by rw [h.links']; simp [hk₁], hstart, hm₁⟩
  · -- The link itself ends behind `x ++ u`.
    rw [h.text] at hm₁
    rw [h.start] at hstart
    rw [← hm₁, Text.byteLength_append] at hlen
    omega
  · have hfar := hbehind k₁ hk₁
    omega

theorem exists_link_behind (h : Grown alt t t' before l l' behind x u w v z) (hno : ¬ alt <:+: m)
    (hs : Solely t m) {p q s : Text} (hp : p = (x ++ u) ++ (w ++ s)) (hvz : v ++ z = s ++ (m ++ q))
    {k : OuterLink} (hk : k ∈ (ofText t').outerLinks) (hm : k.text = m)
    (hle : p.byteLength ≤ k.start) :
    ∃ k ∈ (ofText t').outerLinks, k.start = p.byteLength ∧ k.text = m := by
  have hbefore := h.stop_le.1
  obtain ⟨hu, -⟩ := h.byteLength_pos
  have hlen := congrArg Text.byteLength hp
  simp only [Text.byteLength_append] at hlen
  have hcopy : t = (x ++ u ++ s) ++ (m ++ q) := by
    rw [h.text_eq, hvz]
    simp only [List.append_assoc]
  obtain ⟨k₀, hk₀, hm₀, hle₀⟩ : ∃ k₀ ∈ (ofText t).outerLinks, k₀.text = m ∧
      (x ++ u ++ s).byteLength ≤ k₀.start := by
    rcases h.mem_links' hno hk hm with hk | ⟨k₀, hk₀, rfl⟩
    · have hnear := hbefore k hk
      omega
    · have hstart : (shift w.byteLength k₀).start = k₀.start + w.byteLength := rfl
      refine ⟨k₀, by rw [h.links]; simp [hk₀], hm, ?_⟩
      simp only [Text.byteLength_append]
      omega
  obtain ⟨k₁, hk₁, hstart, hm₁⟩ := hs _ _ hcopy k₀ hk₀ hm₀ hle₀
  simp only [Text.byteLength_append] at hstart
  rw [h.links, List.mem_append, List.mem_cons] at hk₁
  rcases hk₁ with hk₁ | rfl | hk₁
  · have hnear := hbefore k₁ hk₁
    omega
  · have hfirst := h.start
    omega
  · refine ⟨shift w.byteLength k₁, ?_, ?_, hm₁⟩
    · rw [h.links']
      simp only [List.mem_append, List.mem_cons, List.mem_map]
      exact .inr (.inr ⟨k₁, hk₁, rfl⟩)
    · change k₁.start + w.byteLength = p.byteLength
      omega

/-- The edit of one link leaves the copies of other texts to their links. -/
theorem solely (h : Grown alt t t' before l l' behind x u w v z) (hno : ¬ alt <:+: m)
    (hs : Solely t m) : Solely t' m := by
  intro p q ht' k hk hm hle
  obtain ⟨_, _, _, _, _, _, _, hplaced⟩ := exists_placed_of_mem hk
  obtain ⟨r, hr⟩ := hplaced.exists_text_eq
  rcases Text.copy_cases (ht'.symm.trans h.text_eq') (hm.symm.trans hr) h.alt_infix hno h.bare with
    ⟨s, hxu⟩ | ⟨s, hp, hvz⟩
  · exact h.exists_link_ahead hno hs hxu hk hm hle
  · exact h.exists_link_behind hno hs hp hvz hk hm hle

end Grown

end Document

end Wikitext
