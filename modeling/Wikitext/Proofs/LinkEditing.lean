import Wikitext.AltInsertion
import Wikitext.Proofs.MediaLinks

/-! One parameter added to a link of a document. The steps ahead of the link and behind it stay, as
do those of its other parameters: the new parameter is text that no marker reaches into, and
separators part it from what it stands beside. -/

namespace Wikitext

open Step OuterLink Document Lexeme

namespace Text

/-- Text that holds no bracket and cannot begin a comment. -/
def Bare (t : Text) : Prop :=
  ∀ c ∈ t, c ∉ '<' :: brackets

instance (t : Text) : Decidable t.Bare :=
  inferInstanceAs (Decidable (∀ c ∈ t, c ∉ '<' :: brackets))

theorem Bare.plain {t : Text} (h : t.Bare) : t.Plain :=
  fun c hc hm => h c hc (List.mem_cons_of_mem _ hm)

theorem Bare.not_comment {t : Text} (h : t.Bare) : ¬ LexemeKind.commentOpen.literal <:+: t := by
  intro hi
  exact h '<' (hi.subset (by decide)) List.mem_cons_self

theorem Bare.blank_cons {t : Text} (h : t.Bare) : Bare (' ' :: t) := by
  intro c hc
  rcases List.mem_cons.mp hc with rfl | hc
  · decide
  · exact h c hc

theorem Bare.append_blank {t : Text} (h : t.Bare) : Bare (t ++ [' ']) := by
  intro c hc
  rcases List.mem_append.mp hc with hc | hc
  · exact h c hc
  · obtain rfl : c = ' ' := by simpa using hc
    decide

theorem ofText_insert {t w : Text} {x y : List Cell} (h : Cell.ofText t = x ++ y)
    (hy : Cell.atBoundary y = true) (hx : Parted (Cell.chars x) (w ++ Cell.chars y))
    (hw : Parted w (Cell.chars y)) :
    Cell.ofText (Cell.chars x ++ (w ++ Cell.chars y)) = x ++ (Cell.ofText w ++ y) := by
  rw [ofText_append hx, ofText_append hw, ofText_chars_of_atBoundary h hy,
    ← (cells_of_ofText_eq_append h).1]

end Text

namespace OuterLink

section Cutting

variable {cut : Step → Bool}

theorem segments_prepended {b : Cell} {ss ss' : List Step} (h : Prepended b ss ss')
    (hcut : ∀ s, s.kind = .text → cut s = false) {first : Text} {more : List Text}
    (hs : (segments cut ss).map textOf = first :: more) :
    (segments cut ss').map textOf = (b.char :: first) :: more := by
  cases h with
  | apart =>
    obtain ⟨rfl, rfl⟩ := List.cons.inj hs
    rw [segments_cons_keep (hcut _ rfl)]
    rfl
  | joined =>
    rw [segments_cons_keep (hcut _ rfl)] at hs ⊢
    obtain ⟨rfl, rfl⟩ := List.cons.inj hs
    rfl

theorem segments_behind_cut {u v : List Step} {s : Step} (hs : cut s = true)
    (hv : ∀ k ∈ v, cut k = false) :
    (segments cut (u ++ s :: v)).map textOf = (segments cut u).map textOf ++ [textOf v] := by
  rw [segments_append_cut hs, segments_of_keep hv, List.map_append, List.map_singleton]

theorem segments_behind_keep {u v : List Step} {s : Step} (hs : cut s = false)
    (hv : ∀ k ∈ v, cut k = false) {ps : List Text} {p : Text}
    (hu : (segments cut u).map textOf = ps ++ [p]) :
    (segments cut (u ++ s :: v)).map textOf = ps ++ [p ++ (s.text ++ textOf v)] := by
  obtain ⟨xs, last, hxs⟩ := exists_segments_eq_append cut u
  rw [hxs, List.map_append] at hu
  obtain ⟨hps, hp⟩ := List.append_inj' hu rfl
  obtain rfl : textOf last = p := by simpa using hp
  have hkeep : ∀ k ∈ s :: v, cut k = false := by
    intro k hk
    rcases List.mem_cons.mp hk with rfl | hk
    · exact hs
    · exact hv k hk
  rw [segments_append hxs (segments_of_keep hkeep), List.map_append, hps]
  simp

end Cutting

theorem separates_of_text {template : Nat} {s : Step} (h : s.kind = .text ∨ s.kind = .newline) :
    separates template s = false := by
  rcases h with h | h <;> simp [separates, h]

theorem closes_of_text {s : Step} (h : s.kind = .text ∨ s.kind = .newline) : closes s = false := by
  rcases h with h | h <;> simp [closes, h]

/-- The templates that a link opens are closed in it. -/
def Level (l : OuterLink) : Prop :=
  l.closing.depths.template = l.opening.depths.template

instance (l : OuterLink) : Decidable l.Level :=
  inferInstanceAs (Decidable (l.closing.depths.template = l.opening.depths.template))

/-- Two links that use the same alias, whatever the aliases are. -/
def SameAlias (l l' : OuterLink) : Prop :=
  ∀ aliases : List Text, (∀ a ∈ aliases, Clean a) → l'.alias? aliases = l.alias? aliases

theorem sameAlias_of_inside {l l' : OuterLink} {u v w : List Step} {s : Step}
    (hl : l.inside = u ++ s :: v) (hl' : l'.inside = u ++ s :: w) (hs : s.text = ['|']) :
    SameAlias l l' := by
  intro aliases ha
  have hno : ∀ a ∈ aliases, ¬ Cell.chars ((u ++ [s]).flatMap (·.cells)) <+: a ++ [':'] := by
    intro a hmem
    rw [chars_flatMap_cells, textOf_append, textOf_cons, hs, textOf_nil]
    exact (ha a hmem).not_prefix_of_separator
  have hcut : ∀ (k : OuterLink) (r : List Step), k.inside = u ++ s :: r →
      k.alias? aliases = MediaLink.aliasAt? aliases ((u ++ [s]).flatMap (·.cells)) := by
    intro k r hk
    have he : k.inside.flatMap (·.cells) ++ k.closing.cells =
        (u ++ [s]).flatMap (·.cells) ++ (r.flatMap (·.cells) ++ k.closing.cells) := by
      rw [hk]
      simp
    rw [alias?, he, MediaLink.aliasAt?_append hno]
  rw [hcut l v hl, hcut l' w hl']

end OuterLink

namespace Document.Placed

variable {t : Text} {x y z : List Cell} {pre : List Step} {l : OuterLink}
  {before : List OuterLink} {d e : Depths}

theorem depths_eq (h : Placed t x y z pre l before d e) :
    d.link = 0 ∧ l.opening.depths = ⟨d.template, 1⟩ := by
  have ho := opens_iff.mp h.stands.opening
  obtain ⟨u, v, f, rfl, hu, -⟩ := h.link.split (p := [l.opening]) (q := l.inside ++ [l.closing])
  obtain ⟨k, hk⟩ := hu.exists_after (by simp [ho.1])
  rw [ho.1] at hk
  have hf := Depths.after_eq_linkOpen hk
  obtain rfl : f = l.opening.depths := hu.depths_of_getLast (p := [])
  have hl : l.opening.depths.link = d.link + 1 := by rw [hf]
  have hzero : d.link = 0 := by omega
  exact ⟨hzero, by rw [hf, hzero]⟩

/-- Another link with the same beginning may stand in the place of a link. -/
theorem revise (h : Placed t x y z pre l before d e) {t' : Text} {w : List Cell}
    {i : List Step} (hcells : Cell.ofText t' = x ++ ((l.opening.cells ++ w) ++ z))
    (hlink : Scans d (l.opening.cells ++ w) z (l.opening :: i ++ [l.closing]) e)
    (hinside : ∀ s ∈ i, closes s = false) :
    Placed t' x (l.opening.cells ++ w) z pre ⟨l.start, l.opening, i, l.closing⟩ before d e
    where
  cells := hcells
  ahead := by
    have hr := replaces_append_marker (y := l.inside.flatMap (·.cells) ++ l.closing.cells ++ z)
      (w := w ++ z) (k := .linkOpen) (by decide) h.written.opening
    have ha := h.ahead
    rw [h.cells_eq, List.append_assoc] at ha
    rw [List.append_assoc]
    exact ha.replace hr
  link := hlink
  stands := ⟨h.stands.holds, h.stands.start, h.stands.opening, hinside, h.stands.closing⟩

end Document.Placed

def Cell.bar : Cell := ⟨'|', true⟩

def Cell.blank : Cell := ⟨' ', true⟩

theorem Cell.ofText_append_bar {t : Text} (h : t.Parted ['|']) :
    Cell.ofText (t ++ ['|']) = Cell.ofText t ++ [Cell.bar] := by
  rw [Text.ofText_append h, Cell.ofText_singleton, Cell.bar]

theorem scans_bar {d : Depths} {z : List Cell} (hz : Cell.atBoundary z = true) :
    Scans d [Cell.bar] z [⟨.pipe, [Cell.bar], d⟩] d :=
  scans_marker (k := .pipe) (by decide) (by decide) rfl rfl hz

theorem exists_scans_bare {d : Depths} {t : Text} {z : List Cell} (ht : t.Bare) (hz : Stops z) :
    ∃ ss, Scans d (Cell.ofText t) z ss d ∧ textOf ss = t ∧
      ∀ s ∈ ss, (s.kind = .text ∨ s.kind = .newline) ∧ s.depths = d := by
  obtain ⟨ss, hs, hk⟩ := exists_scans_plain (d := d) (x := Cell.ofText t) (z := z)
    (by rw [Cell.chars_ofText]; exact ht.plain) (by rw [Cell.chars_ofText]; exact ht.not_comment) hz
  exact ⟨ss, hs, by rw [hs.textOf_eq, Cell.chars_ofText], hk⟩

theorem exists_scans_spaced {d e : Depths} {x z : List Cell} {ss : List Step} {template : Nat}
    {p : Text} {more : List Text} (h : Scans d x z ss e)
    (hz : x = [] → ∀ a ∈ z.head?, isMarkerChar a.char = true)
    (hs : (segments (separates template) ss).map textOf = p :: more)
    (hc : ∀ s ∈ ss, closes s = false) :
    ∃ gap ss', (gap = [] ∨ gap = [' ']) ∧ Scans d (Cell.ofText gap ++ x) z ss' e ∧
      (segments (separates template) ss').map textOf = AltPlace.spaced p :: more ∧
      ∀ s ∈ ss', closes s = false := by
  by_cases hp : p.head?.any isWhite = true
  · refine ⟨[], ss, .inl rfl, ?_, ?_, hc⟩
    · rw [Cell.ofText_nil]
      exact h
    · rw [hs, AltPlace.spaced, if_pos hp]
  · obtain ⟨ss', h', hpre⟩ := h.exists_prepended (b := Cell.blank) rfl hz
    refine ⟨[' '], ss', .inr rfl, by rw [Cell.ofText_singleton]; exact h', ?_, fun s hmem => ?_⟩
    · rw [segments_prepended hpre (fun s hk => separates_of_text (.inl hk)) hs, AltPlace.spaced,
        if_neg hp]
      rfl
    · cases hpre with
      | apart =>
        rcases List.mem_cons.mp hmem with rfl | hmem
        · rfl
        · exact hc s hmem
      | joined =>
        rcases List.mem_cons.mp hmem with rfl | hmem
        · rfl
        · exact hc s (List.mem_cons_of_mem _ hmem)

theorem parted_bar_blank (r t : Text) : Text.Parted (r ++ ['|']) (' ' :: t) :=
  Text.parted_other_other rfl rfl

theorem parted_blank_bar (r t : Text) : Text.Parted (r ++ [' ']) ('|' :: t) :=
  Text.parted_other_other rfl rfl

theorem ofText_param (alt : Text) {r t gap : Text} (hgap : gap = [] ∨ gap = [' '])
    (h : Text.Parted (r ++ ['|']) t) :
    Cell.ofText (' ' :: (alt ++ [' ']) ++ ['|'] ++ gap) =
      Cell.ofText (' ' :: (alt ++ [' '])) ++ [Cell.bar] ++ Cell.ofText gap ∧
    Text.Parted (' ' :: (alt ++ [' ']) ++ ['|'] ++ gap) t := by
  have hbar := Cell.ofText_append_bar (parted_blank_bar (' ' :: alt) [])
  rcases hgap with rfl | rfl
  · rw [List.append_nil, Cell.ofText_nil, List.append_nil]
    exact ⟨hbar, h.congr_last rfl rfl⟩
  · rw [Text.ofText_append (parted_bar_blank _ _)]
    exact ⟨congrArg (· ++ _) hbar, h.congr_last rfl rfl⟩

theorem ofText_insert_param (alt : Text) {t r gap : Text} {x y : List Cell}
    (h : Cell.ofText t = x ++ y) (hy : Cell.atBoundary y = true) (hx : Cell.chars x = r ++ ['|'])
    (hgap : gap = [] ∨ gap = [' ']) :
    Cell.ofText (Cell.chars x ++ ((' ' :: (alt ++ [' ']) ++ ['|'] ++ gap) ++ Cell.chars y)) =
      x ++ ((Cell.ofText (' ' :: (alt ++ [' '])) ++ [Cell.bar] ++ Cell.ofText gap) ++ y) := by
  have hparted := (Text.parted_of_ofText_eq_append h).mpr hy
  rw [hx] at hparted
  obtain ⟨hw, hwparted⟩ := ofText_param alt hgap hparted
  have hfirst : (Cell.chars x).Parted
      ((' ' :: (alt ++ [' ']) ++ ['|'] ++ gap) ++ Cell.chars y) := by
    rw [hx]
    exact parted_bar_blank _ _
  rw [Text.ofText_insert h hy hfirst hwparted, hw]

theorem ofText_insert_last {t r alt : Text} {x y : List Cell} (h : Cell.ofText t = x ++ y)
    (hy : Cell.atBoundary y = true) (hr : Cell.chars y = ']' :: r) (hend : alt.Parted [']']) :
    Cell.ofText (Cell.chars x ++ (('|' :: ' ' :: alt) ++ Cell.chars y)) =
      x ++ ((Cell.bar :: Cell.ofText (' ' :: alt)) ++ y) := by
  have hparted := (Text.parted_of_ofText_eq_append h).mpr hy
  rw [hr] at hparted
  have hlast : Text.Parted ('|' :: ' ' :: alt) (Cell.chars y) := by
    rw [hr]
    exact hend.append_left (s := ['|']) rfl rfl
  have hfirst : (Cell.chars x).Parted (('|' :: ' ' :: alt) ++ Cell.chars y) :=
    hparted.congr_head rfl
  have hw := Text.ofText_append (parted_bar_blank [] alt)
  rw [List.nil_append, Cell.ofText_singleton] at hw
  rw [Text.ofText_insert h hy hfirst hlast]
  exact congrArg (fun w => x ++ (w ++ y)) hw

namespace Document.Placed

variable {t : Text} {x y z : List Cell} {pre : List Step} {l : OuterLink}
  {before : List OuterLink} {d e : Depths}

theorem exists_separator (h : Placed t x y z pre l before d e) {a b : List Text} {p : Text}
    (hp : l.params = a ++ p :: b) : ∃ u s v m n g,
    l.inside = u ++ s :: v ∧ s.kind = .pipe ∧ s.depths = l.opening.depths ∧
    (segments (separates l.opening.depths.template) u).map textOf = l.title :: a ∧
    (segments (separates l.opening.depths.template) v).map textOf = p :: b ∧
    y = l.opening.cells ++ (m ++ (n ++ l.closing.cells)) ∧
    Scans d (l.opening.cells ++ m) (n ++ (l.closing.cells ++ z)) (l.opening :: (u ++ [s]))
      s.depths ∧
    Scans s.depths n (l.closing.cells ++ z) v g ∧ Scans g l.closing.cells z [l.closing] e := by
  have hlen : (segments (separates l.opening.depths.template) l.inside).length =
      1 + (a.length + (1 + b.length)) := by
    have hl := congrArg List.length l.title_cons_params
    rw [hp, List.length_map] at hl
    rw [← hl]
    simp only [List.length_cons, List.length_append]
    omega
  obtain ⟨u, s, v, hi, hs, hu⟩ := exists_cut (n := a.length) (by rw [hlen]; omega)
  obtain ⟨hk, hlink, htemplate⟩ := separates_iff.mp hs
  have hseg := l.title_cons_params
  rw [hp, hi, segments_append_cut hs, List.map_append, ← List.cons_append] at hseg
  obtain ⟨hu', hv'⟩ := List.append_inj hseg (by simp [hu])
  have hscan := h.link
  have hsteps : l.steps = (l.opening :: (u ++ [s])) ++ (v ++ [l.closing]) := by
    rw [OuterLink.steps, hi]
    simp
  rw [hsteps] at hscan
  obtain ⟨m, w, f, rfl, hm, hw⟩ := hscan.split
  obtain rfl : f = s.depths := hm.depths_of_getLast (p := l.opening :: u)
  obtain ⟨n, c, g, rfl, hn, hc⟩ := hw.split
  obtain rfl : c = l.closing.cells := by simpa using hc.flatMap_cells.symm
  have hcells : m = l.opening.cells ++ (u ++ [s]).flatMap (·.cells) := by
    rw [← hm.flatMap_cells, List.flatMap_cons]
  refine ⟨u, s, v, (u ++ [s]).flatMap (·.cells), n, g, hi, hk, ?_, hu'.symm, hv'.symm, ?_, ?_, hn,
    hc⟩
  · rw [h.depths_eq.2]
    rw [h.depths_eq.2] at htemplate
    cases hd : s.depths
    simp_all
  · rw [hcells]
    simp
  · rw [← hcells]
    simpa only [List.append_assoc] using hm

theorem stops_closing (h : Placed t x y z pre l before d e) : Stops (l.closing.cells ++ z) := by
  have hchars : Cell.chars l.closing.cells = LexemeKind.linkClose.literal := h.written.closing
  exact stops_of_chars hchars (by decide)

theorem insert_before (h : Placed t x y z pre l before d e) {a b : List Text} {p alt : Text}
    (hp : l.params = a ++ p :: b) (halt : alt.Bare) : ∃ y' l',
    Placed (Cell.chars x ++ (Cell.chars y' ++ Cell.chars z)) x y' z pre l' before d e ∧
    l'.title = l.title ∧
    l'.params = a ++ (' ' :: (alt ++ [' '])) :: AltPlace.spaced p :: b ∧ SameAlias l l' := by
  obtain ⟨u, s, v, m, n, g, hi, hk, hd, hu, hv, rfl, hm, hn, hc⟩ := h.exists_separator hp
  have hin := h.stands.inside
  rw [hi] at hin
  obtain ⟨gap, v', hgap, hn', hv', hcl⟩ :=
    exists_scans_spaced hn (fun _ => h.stops_closing.marker_head) hv fun k hk =>
      hin k (by simp [hk])
  have hbound : Cell.atBoundary (n ++ (l.closing.cells ++ z)) = true :=
    hm.boundary_after (p := l.opening :: u) (by simp [hk])
  have hgap' : Cell.atBoundary ((Cell.ofText gap ++ n ++ l.closing.cells) ++ z) = true := by
    rcases hgap with rfl | rfl
    · rw [Cell.ofText_nil]
      simpa only [List.nil_append, List.append_assoc] using hbound
    · rw [Cell.ofText_singleton]
      rfl
  -- The steps: those ahead, the new parameter, its separator, and those behind.
  obtain ⟨ws, hws, hwt, hwk⟩ := exists_scans_bare (d := s.depths)
    (z := ([Cell.bar] ++ (Cell.ofText gap ++ n ++ l.closing.cells)) ++ z)
    halt.append_blank.blank_cons (stops_cons _ (by decide))
  have hfirst : Cell.atBoundary ((Cell.ofText (' ' :: (alt ++ [' '])) ++
      ([Cell.bar] ++ (Cell.ofText gap ++ n ++ l.closing.cells))) ++ z) = true := by
    rw [List.append_assoc]
    exact Cell.atBoundary_ofText_append (List.cons_ne_nil _ _) _
  have hall := (hm.replace_after (p := l.opening :: u) (by simp [hk]) hfirst).append
    (hws.append ((scans_bar hgap').append (hn'.append hc)))
  have hbar : s.text = ['|'] := h.written.separators s (by simp [hi]) hk
  have hseg : (segments (separates l.opening.depths.template)
      (u ++ s :: (ws ++ ⟨.pipe, [Cell.bar], s.depths⟩ :: v'))).map textOf =
      l.title :: (a ++ (' ' :: (alt ++ [' '])) :: AltPlace.spaced p :: b) := by
    have hlink : l.opening.depths.link = 1 := by rw [h.depths_eq.2]
    rw [segments_append_cut (by simp [separates, hk, hlink, hd]),
      segments_append_cut (by simp [separates, hlink, hd]),
      segments_of_keep fun k hk => separates_of_text (hwk k hk).1, List.map_append, hu,
      List.map_append, hv', List.map_singleton, hwt]
    rfl
  refine ⟨_, _, h.revise (w := m ++ (Cell.ofText (' ' :: (alt ++ [' '])) ++
      ([Cell.bar] ++ (Cell.ofText gap ++ n ++ l.closing.cells))))
    (i := u ++ s :: (ws ++ ⟨.pipe, [Cell.bar], s.depths⟩ :: v')) ?_ ?_ ?_,
    (List.cons.inj hseg).1, (List.cons.inj hseg).2, sameAlias_of_inside hi rfl hbar⟩
  · have hXY : Cell.ofText t = (x ++ (l.opening.cells ++ m)) ++ (n ++ (l.closing.cells ++ z)) := by
      rw [h.cells]
      simp only [List.append_assoc]
    have hX : Cell.chars (x ++ (l.opening.cells ++ m)) =
        (Cell.chars x ++ textOf (l.opening :: u)) ++ ['|'] := by
      rw [Cell.chars_append, ← hm.textOf_eq]
      simp [hbar]
    simpa [Cell.chars_ofText, Cell.bar] using ofText_insert_param alt hXY hbound hX hgap
  · simpa using hall
  · intro k hmem
    simp only [List.mem_append, List.mem_cons] at hmem
    rcases hmem with hmem | rfl | hmem | rfl | hmem
    · exact hin k (by simp [hmem])
    · exact hin k (by simp)
    · exact closes_of_text (hwk k hmem).1
    · rfl
    · exact hcl k hmem

theorem exists_closing (h : Placed t x y z pre l before d e) : ∃ m f,
    y = (l.opening.cells ++ m) ++ l.closing.cells ∧ f.link = 1 ∧
    f.template = l.closing.depths.template ∧
    Scans d (l.opening.cells ++ m) (l.closing.cells ++ z) (l.opening :: l.inside) f ∧
    Scans f l.closing.cells z [l.closing] e := by
  have hscan := h.link
  have hc := closes_iff.mp h.stands.closing
  obtain ⟨m, c, f, rfl, hm, hl⟩ := hscan.split (p := l.opening :: l.inside)
  obtain rfl : c = l.closing.cells := by simpa using hl.flatMap_cells.symm
  have hcells : m = l.opening.cells ++ l.inside.flatMap (·.cells) := by
    rw [← hm.flatMap_cells, List.flatMap_cons]
  obtain ⟨k, hk⟩ := hl.exists_after (by simp [hc.1])
  rw [hc.1] at hk
  obtain ⟨hlink, htemplate⟩ := Depths.after_eq_linkClose hk
  obtain rfl : e = l.closing.depths := hl.depths_of_getLast (p := [])
  exact ⟨_, f, by rw [hcells], by rw [hlink, hc.2], htemplate, hcells ▸ hm, hl⟩

theorem atBoundary_closing (h : Placed t x y z pre l before d e) :
    Cell.atBoundary (l.closing.cells ++ z) = true := by
  obtain ⟨m, f, -, -, -, -, hc⟩ := h.exists_closing
  have hk := (closes_iff.mp h.stands.closing).1
  have hb := (hc.text_eq List.mem_cons_self (by simp [hk]) (by simp [hk])).2
  have hne : l.closing.cells ≠ [] := by
    intro hnil
    have htext := h.written.closing
    rw [Step.text, hnil] at htext
    cases htext
  rwa [Cell.atBoundary_append hne]

/-- A new parameter behind all others. It becomes part of the last one when that leaves a template
open. -/
theorem insert_last (h : Placed t x y z pre l before d e) {a : List Text} {p alt : Text}
    (hp : l.params = a ++ [p]) (halt : alt.Bare) (hend : alt.Parted [']']) : ∃ y' l',
    Placed (Cell.chars x ++ (Cell.chars y' ++ Cell.chars z)) x y' z pre l' before d e ∧
    l'.title = l.title ∧ (l.Level → l'.params = a ++ [p, ' ' :: alt]) ∧
    (¬ l.Level → l'.params = a ++ [p ++ '|' :: ' ' :: alt]) ∧ SameAlias l l' := by
  obtain ⟨u, s, v, -, -, -, hi, hk, -⟩ := h.exists_separator hp
  have hbound := h.atBoundary_closing
  have hstops := h.stops_closing
  obtain ⟨m, f, rfl, hlink, htemplate, hm, hc⟩ := h.exists_closing
  -- The steps: those ahead, the separator, the new parameter, and the end of the link.
  obtain ⟨ws, hws, hwt, hwk⟩ := exists_scans_bare (d := f) (z := l.closing.cells ++ z)
    halt.blank_cons hstops
  have hfirst : Cell.atBoundary ((Cell.ofText (' ' :: alt) ++ l.closing.cells) ++ z) = true := by
    rw [List.append_assoc]
    exact Cell.atBoundary_ofText_append (List.cons_ne_nil _ _) _
  have hopener : Opener '|' := ⟨rfl, by decide⟩
  have hall := (hm.replace (replaces_opener (a := Cell.bar)
    (w := (Cell.ofText (' ' :: alt) ++ l.closing.cells) ++ z) hopener hbound.symm)).append
    ((scans_bar hfirst).append (hws.append hc))
  have hbar : s.text = ['|'] := h.written.separators s (by simp [hi]) hk
  have hkeep : ∀ k ∈ ws, separates l.opening.depths.template k = false := fun k hmem =>
    separates_of_text (hwk k hmem).1
  have hlevel : l.Level → (segments (separates l.opening.depths.template)
      (l.inside ++ ⟨.pipe, [Cell.bar], f⟩ :: ws)).map textOf =
      l.title :: (a ++ [p, ' ' :: alt]) := by
    intro hlevel
    have hs : separates l.opening.depths.template ⟨.pipe, [Cell.bar], f⟩ = true :=
      separates_iff.mpr ⟨rfl, hlink, htemplate.trans hlevel⟩
    rw [segments_behind_cut hs hkeep, ← l.title_cons_params, hp, hwt]
    simp
  have hopen : ¬ l.Level → (segments (separates l.opening.depths.template)
      (l.inside ++ ⟨.pipe, [Cell.bar], f⟩ :: ws)).map textOf =
      l.title :: (a ++ [p ++ '|' :: ' ' :: alt]) := by
    intro hopen
    have hno : separates l.opening.depths.template ⟨.pipe, [Cell.bar], f⟩ = false := by
      rw [Bool.eq_false_iff]
      intro hs
      exact hopen (htemplate.symm.trans (separates_iff.mp hs).2.2)
    have hlast : (segments (separates l.opening.depths.template) l.inside).map textOf =
        (l.title :: a) ++ [p] := by
      rw [← l.title_cons_params, hp]
      rfl
    rw [segments_behind_keep hno hkeep hlast, hwt]
    rfl
  refine ⟨_, _, h.revise (w := m ++ (Cell.bar :: (Cell.ofText (' ' :: alt) ++ l.closing.cells)))
    (i := l.inside ++ ⟨.pipe, [Cell.bar], f⟩ :: ws) ?_ ?_ ?_, ?_, fun hl => ?_, fun hl => ?_,
    sameAlias_of_inside (w := v ++ ⟨.pipe, [Cell.bar], f⟩ :: ws) hi (by simp [hi]) hbar⟩
  · have hXY : Cell.ofText t = (x ++ (l.opening.cells ++ m)) ++ (l.closing.cells ++ z) := by
      rw [h.cells]
      simp only [List.append_assoc]
    have hY : Cell.chars (l.closing.cells ++ z) = ']' :: ']' :: Cell.chars z := by
      have hclose : Cell.chars l.closing.cells = LexemeKind.linkClose.literal := h.written.closing
      rw [Cell.chars_append, hclose]
      rfl
    simpa [Cell.chars_ofText, Cell.bar] using ofText_insert_last hXY hbound hY hend
  · simpa using hall
  · intro k hmem
    simp only [List.mem_append, List.mem_cons] at hmem
    rcases hmem with hmem | rfl | hmem
    · exact h.stands.inside k hmem
    · rfl
    · exact closes_of_text (hwk k hmem).1
  · by_cases hl : l.Level
    · exact (List.cons.inj (hlevel hl)).1
    · exact (List.cons.inj (hopen hl)).1
  · exact (List.cons.inj (hlevel hl)).2
  · exact (List.cons.inj (hopen hl)).2

end Document.Placed

end Wikitext
