import Wikitext.Proofs.LinkEditing

/-! Alternative text added to one link of a document. The link is read again from its own text,
where fewer templates are open; as long as none of those around it is closed inside it, that reading
finds the same title and the same parameters. -/

namespace Wikitext

open Step OuterLink Document Lexeme

/-- A parameter that is the caption, as written or as displayed. -/
def Captions (caption p : Text) : Prop :=
  caption.trim ≠ [] ∧ (p.trim = caption.trim ∨ displayText p = caption.trim)

/-- `Chosen caption u p v written`: among the parameters `u ++ p :: v` the caption is `p`, the first
one written as it or, when none is, the first one displayed as it. -/
inductive Chosen (caption : Text) (u : List Text) (p : Text) (v : List Text) : Bool → Prop
  | written (hu : ∀ q ∈ u, q.trim ≠ caption.trim) (hp : p.trim = caption.trim) :
      Chosen caption u p v true
  | displayed (hw : ∀ q ∈ u ++ p :: v, q.trim ≠ caption.trim)
      (hu : ∀ q ∈ u, displayText q ≠ caption.trim) (hp : displayText p = caption.trim) :
      Chosen caption u p v false

/-- `Gains alt caption level ps ps'`: the parameters `ps` become `ps'` by a new one beside the
caption, behind it if that is only displayed and comes last. `level` says that the parameters leave
no template open: otherwise what comes behind the last one is part of it. -/
inductive Gains (alt caption : Text) (level : Prop) : List Text → List Text → Prop
  | before {u v : List Text} {p : Text} {written : Bool} (hc : Chosen caption u p v written)
      (h : written = true ∨ v ≠ []) :
      Gains alt caption level (u ++ p :: v)
        (u ++ (' ' :: (alt ++ [' '])) :: AltPlace.spaced p :: v)
  | behind {u : List Text} {p : Text} (hc : Chosen caption u p [] false) (hlevel : level) :
      Gains alt caption level (u ++ [p]) (u ++ [p, ' ' :: alt])
  | inside {u : List Text} {p : Text} (hc : Chosen caption u p [] false) (hlevel : ¬ level) :
      Gains alt caption level (u ++ [p]) (u ++ [p ++ '|' :: ' ' :: alt])

instance (caption p : Text) : Decidable (Captions caption p) :=
  inferInstanceAs
    (Decidable (caption.trim ≠ [] ∧ (p.trim = caption.trim ∨ displayText p = caption.trim)))

theorem exists_of_findIdx?_eq_some {α : Type} {f : α → Bool} {xs : List α} {i : Nat}
    (h : xs.findIdx? f = some i) :
    ∃ u a v, xs = u ++ a :: v ∧ u.length = i ∧ f a = true ∧ ∀ b ∈ u, f b = false := by
  induction xs generalizing i with
  | nil => cases h
  | cons a xs ih =>
    rw [List.findIdx?_cons] at h
    by_cases ha : f a = true
    · rw [if_pos ha] at h
      cases h
      exact ⟨[], a, xs, rfl, rfl, ha, by simp⟩
    · rw [if_neg ha] at h
      obtain ⟨j, hj, rfl⟩ := Option.map_eq_some_iff.mp h
      obtain ⟨u, b, v, rfl, rfl, hb, hu⟩ := ih hj
      refine ⟨a :: u, b, v, rfl, rfl, hb, fun c hc => ?_⟩
      rcases List.mem_cons.mp hc with rfl | hc
      · simpa using ha
      · exact hu c hc

namespace AltPlace

theorem ofCaption?_eq_none {caption : Text} {ps : List Text} (h : ofCaption? caption ps = none) :
    ∀ p ∈ ps, ¬ Captions caption p := by
  rintro p hp ⟨hne, hmatch⟩
  rw [ofCaption?, if_neg hne] at h
  split at h
  · cases h
  · rename_i hw
    rw [List.findIdx?_eq_none_iff] at hw
    split at h
    · cases h
    · rename_i hd
      rw [List.findIdx?_eq_none_iff] at hd
      rcases hmatch with hm | hm
      · simpa [hm] using hw p hp
      · simpa [hm] using hd p hp

theorem exists_chosen {caption : Text} {ps : List Text} {place : AltPlace}
    (h : ofCaption? caption ps = some place) : caption.trim ≠ [] ∧ ∃ u p v written,
      ps = u ++ p :: v ∧ Chosen caption u p v written ∧
      ((written = true ∨ v ≠ []) ∧ place = .before u.length ∨
        (written = false ∧ v = []) ∧ place = .last) := by
  rw [ofCaption?] at h
  split at h
  · cases h
  · rename_i hne
    refine ⟨hne, ?_⟩
    split at h
    · rename_i i hi
      cases h
      obtain ⟨u, p, v, he, rfl, hp, hu⟩ := exists_of_findIdx?_eq_some hi
      have hc : Chosen caption u p v true :=
        .written (fun q hq => by simpa using hu q hq) (by simpa using hp)
      exact ⟨u, p, v, true, he, hc, .inl ⟨.inl rfl, rfl⟩⟩
    · rename_i hw
      rw [List.findIdx?_eq_none_iff] at hw
      split at h
      · rename_i i hi
        obtain ⟨u, p, v, rfl, rfl, hp, hu⟩ := exists_of_findIdx?_eq_some hi
        have hc : Chosen caption u p v false := .displayed (fun q hq => by simpa using hw q hq)
          (fun q hq => by simpa using hu q hq) (by simpa using hp)
        refine ⟨u, p, v, false, rfl, hc, ?_⟩
        by_cases hv : v = []
        · subst hv
          rw [if_pos (by simp)] at h
          cases h
          exact .inr ⟨⟨rfl, rfl⟩, rfl⟩
        · have hlen : u.length + 1 ≠ (u ++ p :: v).length := by
            have hpos := List.length_pos_iff.mpr hv
            simp only [List.length_append, List.length_cons]
            omega
          rw [if_neg hlen] at h
          cases h
          exact .inl ⟨.inr hv, rfl⟩
      · cases h

theorem ofCaption?_of_chosen_last {caption : Text} {u : List Text} {p : Text}
    (h : Chosen caption u p [] false) (hne : caption.trim ≠ []) :
    ofCaption? caption (u ++ [p]) = some .last := by
  cases h with
  | displayed hw hu hp =>
    have hwritten : (u ++ [p]).findIdx? (fun q => decide (q.trim = caption.trim)) = none := by
      rw [List.findIdx?_eq_none_iff]
      intro q hq
      simpa using hw q hq
    have hdisplayed : (u ++ [p]).findIdx? (fun q => decide (displayText q = caption.trim)) =
        some u.length := by
      have hnone : u.findIdx? (fun q => decide (displayText q = caption.trim)) = none := by
        rw [List.findIdx?_eq_none_iff]
        intro q hq
        simpa using hu q hq
      rw [List.findIdx?_append, hnone]
      simp [hp]
    rw [ofCaption?, if_neg hne, hwritten, hdisplayed]
    simp

theorem insert_before_length (alt : Text) (u v : List Text) (p : Text) :
    insert alt (u ++ p :: v) (.before u.length) =
      u ++ (' ' :: (alt ++ [' '])) :: spaced p :: v := by
  simp [insert]

end AltPlace

/-- `Put alt t t' u w v`: the text `t` is `u ++ v`, and in `t'` the text `w` stands between, which
is made of `alt`, blanks and separators. -/
structure Put (alt t t' u w v : Text) : Prop where
  text_eq : t = u ++ v
  text_eq' : t' = u ++ (w ++ v)
  left : u ≠ []
  right : v ≠ []
  alt_infix : alt <:+: w
  chars : ∀ c ∈ w, c ∈ ' ' :: '|' :: alt

theorem Put.byteLength_eq {alt t t' u w v : Text} (h : Put alt t t' u w v) :
    t'.byteLength = t.byteLength + w.byteLength := by
  rw [h.text_eq, h.text_eq']
  simp only [Text.byteLength_append]
  omega

theorem Put.bare {alt t t' u w v : Text} (h : Put alt t t' u w v) (halt : alt.Bare) :
    ∀ c ∈ w, c ≠ '[' ∧ c ≠ ']' := by
  have hbrackets : ∀ b ∈ ['[', ']'], b ∉ [' ', '|'] ∧ b ∈ '<' :: brackets := by decide
  intro c hc
  have hno : c ∉ ['[', ']'] := by
    intro hb
    rcases List.mem_cons.mp (h.chars c hc) with rfl | hc
    · exact (hbrackets _ hb).1 (by simp)
    · rcases List.mem_cons.mp hc with rfl | hc
      · exact (hbrackets _ hb).1 (by simp)
      · exact halt c hc (hbrackets c hb).2
  simpa using hno

namespace Gains

variable {alt caption : Text} {level : Prop} {ps ps' : List Text}

theorem exists_put (h : Gains alt caption level ps ps') (title : Text) :
    ∃ u w v, Put alt (render title ps) (render title ps') u w v ∧ w ≠ [] := by
  cases h with
  | @before u v p _ _ _ =>
    obtain ⟨gap, hgap, hspaced⟩ : ∃ gap : Text, (∀ c ∈ gap, c = ' ') ∧
        AltPlace.spaced p = gap ++ p := by
      rw [AltPlace.spaced]
      split
      · exact ⟨[], by simp, rfl⟩
      · exact ⟨[' '], by simp, rfl⟩
    refine ⟨['[', '['] ++ title ++ u.flatMap ('|' :: ·) ++ ['|'],
      ' ' :: (alt ++ ' ' :: '|' :: gap), p ++ v.flatMap ('|' :: ·) ++ [']', ']'], ⟨?_, ?_, by simp,
      by simp, ⟨[' '], ' ' :: '|' :: gap, by simp⟩, fun c hc => ?_⟩, List.cons_ne_nil _ _⟩
    · simp [render]
    · simp [render, hspaced]
    · simp only [List.mem_cons, List.mem_append] at hc ⊢
      rcases hc with hc | hc | hc | hc | hc
      · exact .inl hc
      · exact .inr (.inr hc)
      · exact .inl hc
      · exact .inr (.inl hc)
      · exact .inl (hgap c hc)
  | @behind u p =>
    refine ⟨['[', '['] ++ title ++ u.flatMap ('|' :: ·) ++ '|' :: p, '|' :: ' ' :: alt, [']', ']'],
      ⟨by simp [render], by simp [render], by simp, by simp, ⟨['|', ' '], [], by simp⟩,
        fun c hc => ?_⟩, List.cons_ne_nil _ _⟩
    simp only [List.mem_cons] at hc ⊢
    exact or_left_comm.mp hc
  | @inside u p =>
    refine ⟨['[', '['] ++ title ++ u.flatMap ('|' :: ·) ++ '|' :: p, '|' :: ' ' :: alt, [']', ']'],
      ⟨by simp [render], by simp [render], by simp, by simp, ⟨['|', ' '], [], by simp⟩,
        fun c hc => ?_⟩, List.cons_ne_nil _ _⟩
    simp only [List.mem_cons] at hc ⊢
    exact or_left_comm.mp hc

end Gains

namespace OuterLink

/-- No template around a link is closed inside it. -/
def Keeps (l : OuterLink) : Prop :=
  ∀ s ∈ l.inside, l.opening.depths.template ≤ s.depths.template

instance (l : OuterLink) : Decidable l.Keeps :=
  inferInstanceAs (Decidable (∀ s ∈ l.inside, l.opening.depths.template ≤ s.depths.template))

/-- The link as the text of the link alone has it, where the templates around it are not open. -/
def alone (l : OuterLink) : OuterLink :=
  ⟨0, l.opening.lower l.opening.depths.template,
    l.inside.map (Step.lower l.opening.depths.template),
    l.closing.lower l.opening.depths.template⟩

theorem text_alone (l : OuterLink) : l.alone.text = l.text := by
  simp [OuterLink.text, OuterLink.steps, alone, List.flatMap_map]

theorem alias?_alone (l : OuterLink) (aliases : List Text) :
    l.alone.alias? aliases = l.alias? aliases := by
  simp [alias?, alone, Step.lower, List.flatMap_map]

theorem segments_lower {n : Nat} {ss : List Step} (h : ∀ s ∈ ss, n ≤ s.depths.template) :
    (segments (separates 0) (ss.map (Step.lower n))).map textOf =
      (segments (separates n) ss).map textOf := by
  induction ss with
  | nil => rfl
  | cons s ss ih =>
    have hi := ih fun s hs => h s (List.mem_cons_of_mem _ hs)
    have hs : separates 0 (s.lower n) = separates n s := by
      have hle := h s List.mem_cons_self
      have ht : s.depths.template - n = 0 ↔ s.depths.template = n := by omega
      rw [Bool.eq_iff_iff, separates_iff, separates_iff]
      exact and_congr_right' (and_congr_right' ht)
    rw [List.map_cons]
    by_cases hc : separates n s = true
    · rw [segments_cons_cut hc, segments_cons_cut (hs.trans hc), List.map_cons, List.map_cons, hi]
    · have hc' : separates n s = false := by simpa using hc
      obtain ⟨h1, h2⟩ := List.cons.inj hi
      rw [segments_cons_keep hc', segments_cons_keep (hs.trans hc'), List.map_cons, List.map_cons,
        textOf_cons, textOf_cons, h1, h2, text_lower]

theorem Keeps.title_alone {l : OuterLink} (h : l.Keeps) :
    l.alone.title :: l.alone.params = l.title :: l.params := by
  rw [title_cons_params, title_cons_params]
  have hzero : l.alone.opening.depths.template = 0 := Nat.sub_self _
  rw [hzero]
  exact segments_lower h

end OuterLink

namespace Document.Placed

variable {t : Text} {x y z : List Cell} {pre : List Step} {l : OuterLink}
  {before : List OuterLink} {d e : Depths}

theorem steps_eq (h : Placed t x y z pre l before d e) :
    (ofText t).steps = pre ++ (l.steps ++ scanFrom e z) := by
  rw [Document.steps, Step.scan, cells_ofText, h.cells, h.ahead.scanFrom_eq, h.link.scanFrom_eq]

theorem outerLinks_eq (h : Placed t x y z pre l before d e) :
    (ofText t).outerLinks =
      before ++ l :: OuterLink.ofSteps l.bytes.stop (scanFrom e z) := by
  rw [Document.outerLinks, h.steps_eq, h.stands.ofSteps_eq]

theorem keeps_closing (h : Placed t x y z pre l before d e) (hk : l.Keeps) :
    ∀ s ∈ l.steps, l.opening.depths.template ≤ s.depths.template := by
  have hahead : ∀ s ∈ l.opening :: l.inside, l.opening.depths.template ≤ s.depths.template := by
    intro s hs
    rcases List.mem_cons.mp hs with rfl | hs
    · exact le_rfl
    · exact hk s hs
  obtain ⟨m, f, -, -, hf, hm, -⟩ := h.exists_closing
  have hne : l.opening :: l.inside ≠ [] := List.cons_ne_nil _ _
  have hlast := List.dropLast_append_getLast hne
  rw [← hlast] at hm
  intro s hs
  rcases List.mem_append.mp hs with hs | hs
  · exact hahead s hs
  · obtain rfl : s = l.closing := by simpa using hs
    rw [← hf, hm.depths_of_getLast]
    exact hahead _ (List.getLast_mem hne)

/-- The outermost links around a link that is revised stay, those behind it further on. -/
theorem outerLinks_revised (h : Placed t x y z pre l before d e) {t' : Text} {y' : List Cell}
    {l' : OuterLink} {behind : List OuterLink} {n : Nat}
    (h' : Placed t' x y' z pre l' before d e)
    (houter : (ofText t).outerLinks = before ++ l :: behind)
    (hn : (Cell.chars y').byteLength = (Cell.chars y).byteLength + n) :
    (ofText t').outerLinks = before ++ l' :: behind.map (shift n) ∧
      l'.bytes = ⟨l.bytes.start, l.bytes.stop + n⟩ := by
  have hbytes : l'.bytes = ⟨l.bytes.start, l.bytes.stop + n⟩ := by
    rw [OuterLink.bytes, OuterLink.bytes, h'.start_eq, h.start_eq, h'.text_eq, h.text_eq, hn,
      Nat.add_assoc]
  have hstop : l'.bytes.stop = l.bytes.stop + n := congrArg ByteRange.stop hbytes
  rw [h.outerLinks_eq] at houter
  obtain rfl := (List.cons.inj (List.append_cancel_left houter)).2
  rw [h'.outerLinks_eq, hstop, OuterLink.ofSteps_shift]
  exact ⟨rfl, hbytes⟩

theorem outerLinks_alone (h : Placed t x y z pre l before d e) (hk : l.Keeps) :
    (ofText (Cell.chars y)).outerLinks = [l.alone] := by
  have hcells : Cell.ofText (Cell.chars y) = y :=
    Text.ofText_chars_of_eq_append h.cells h.atBoundary
  have htemplate : d.template = l.opening.depths.template := by rw [h.depths_eq.2]
  have hzero : d.lower l.opening.depths.template = .zero := by
    rw [← htemplate, Depths.lower, h.depths_eq.1, Nat.sub_self]
    rfl
  have hlower := h.link.lower htemplate.ge (h.keeps_closing hk)
  have hscan := hlower.replace (replaces_nil h.atBoundary_behind)
  rw [hzero] at hscan
  have hsteps : (ofText (Cell.chars y)).steps =
      l.alone.opening :: (l.alone.inside ++ l.alone.closing :: []) := by
    rw [Document.steps, Step.scan, cells_ofText, hcells, hscan.scanFrom_eq_of_end]
    simp [OuterLink.steps, alone]
  rw [Document.outerLinks, hsteps]
  have hinside : ∀ s ∈ l.alone.inside, closes s = false := by
    intro s hs
    obtain ⟨s', hs', rfl⟩ := List.mem_map.mp hs
    exact h.stands.inside s' hs'
  have hopens : opens l.alone.opening = true := h.stands.opening
  have hcloses : closes l.alone.closing = true := h.stands.closing
  exact (Holds.link hopens hinside hcloses .nil).ofSteps_eq

theorem addAlt?_eq (h : Placed t x y z pre l before d e) (hk : l.Keeps) (alt caption : Text) :
    addAlt? alt caption (Cell.chars y) = (AltPlace.ofCaption? caption l.params).map fun place =>
      render l.title (place.insert alt l.params) := by
  obtain ⟨htitle, hparams⟩ := List.cons.inj hk.title_alone
  have htext : l.alone.text = Cell.chars y := l.text_alone.trans h.text_eq
  have hzero : l.alone.start = 0 := rfl
  rw [addAlt?, h.outerLinks_alone hk]
  simp only [List.head?_cons, hzero, if_true, htitle, hparams, htext, List.drop_length,
    List.append_nil]

theorem text_eq_render (h : Placed t x y z pre l before d e) :
    Cell.chars y = render l.title l.params := by
  rw [← h.text_eq]
  exact OuterLink.text_eq_render h.written.opening h.written.closing h.written.separators

theorem exists_gain (h : Placed t x y z pre l before d e) {alt caption : Text} {place : AltPlace}
    (hplace : AltPlace.ofCaption? caption l.params = some place) (halt : alt.Bare)
    (hend : alt.Parted [']']) : ∃ y' l',
    Placed (Cell.chars x ++ (Cell.chars y' ++ Cell.chars z)) x y' z pre l' before d e ∧
    l'.title = l.title ∧ Gains alt caption l.Level l.params l'.params ∧ SameAlias l l' ∧
    Cell.chars y' = render l.title (place.insert alt l.params) := by
  obtain ⟨-, u, p, v, written, he, hc, hcase⟩ := AltPlace.exists_chosen hplace
  rcases hcase with ⟨hw, rfl⟩ | ⟨⟨rfl, rfl⟩, rfl⟩
  · obtain ⟨y', l', h', ht, hp, hs⟩ := h.insert_before he halt
    refine ⟨y', l', h', ht, ?_, hs, ?_⟩
    · rw [he, hp]
      exact .before hc hw
    · rw [h'.text_eq_render, ht, hp, he, AltPlace.insert_before_length]
  · obtain ⟨y', l', h', ht, hlevel, hopen, hs⟩ := h.insert_last he halt hend
    by_cases hl : l.Level
    · refine ⟨y', l', h', ht, ?_, hs, ?_⟩
      · rw [he, hlevel hl]
        exact .behind hc hl
      · rw [h'.text_eq_render, ht, hlevel hl, he]
        simp [AltPlace.insert]
    · refine ⟨y', l', h', ht, ?_, hs, ?_⟩
      · rw [he, hopen hl]
        exact .inside hc hl
      · rw [h'.text_eq_render, ht, hopen hl, he]
        simp [AltPlace.insert, render]

/-- What the insertion does to a link whose text the document holds nowhere before it. -/
theorem insertAlt_eq (h : Placed t x y z pre l before d e) (hkeeps : l.Keeps) {alt : Text}
    (hfirst : t.breakOn? (Cell.chars y) = some (Cell.chars x, Cell.chars z)) (halt : alt.Bare)
    (hend : alt.Parted [']']) (caption : Text) :
    ((∀ p ∈ l.params, ¬ Captions caption p) ∧ insertAlt alt caption (Cell.chars y) t = t) ∨
    ∃ y' l' u w v, insertAlt alt caption (Cell.chars y) t =
        Cell.chars x ++ (Cell.chars y' ++ Cell.chars z) ∧
      Put alt (Cell.chars y) (Cell.chars y') u w v ∧
      Placed (Cell.chars x ++ (Cell.chars y' ++ Cell.chars z)) x y' z pre l' before d e ∧
      l'.title = l.title ∧ caption.trim ≠ [] ∧ Gains alt caption l.Level l.params l'.params ∧
      SameAlias l l' := by
  have hne : Cell.chars y ≠ [] := by
    rw [h.text_eq_render]
    exact List.cons_ne_nil _ _
  rw [insertAlt, if_neg hne, hfirst, h.addAlt?_eq hkeeps]
  cases hplace : AltPlace.ofCaption? caption l.params with
  | none => exact .inl ⟨AltPlace.ofCaption?_eq_none hplace, rfl⟩
  | some place =>
    obtain ⟨y', l', h', ht, hgain, hs, hy'⟩ := h.exists_gain hplace halt hend
    obtain ⟨u, w, v, hput, -⟩ := hgain.exists_put l.title
    rw [← h.text_eq_render, ← ht, ← h'.text_eq_render] at hput
    refine .inr ⟨y', l', u, w, v, ?_, hput, h', ht, (AltPlace.exists_chosen hplace).1, hgain, hs⟩
    rw [hy']
    exact List.append_assoc _ _ _

theorem chars_eq (h : Placed t x y z pre l before d e) :
    t = Cell.chars x ++ (Cell.chars y ++ Cell.chars z) := by
  rw [← Cell.chars_append, ← Cell.chars_append, ← h.cells, Cell.chars_ofText]

theorem parted (h : Placed t x y z pre l before d e) :
    (Cell.chars x).Parted (Cell.chars y ++ Cell.chars z) := by
  rw [← Cell.chars_append, Text.parted_of_ofText_eq_append h.cells]
  exact h.atBoundary

theorem slice_eq (h : Placed t x y z pre l before d e) :
    t.slice l.bytes.start l.bytes.stop = Cell.chars y := by
  have hstart : l.bytes.start = (Cell.chars x).byteLength := h.start_eq
  have hstop : l.bytes.stop = (Cell.chars x).byteLength + (Cell.chars y).byteLength := by
    rw [← h.start_eq, ← h.text_eq]
    rfl
  rw [hstart, hstop, h.chars_eq, Text.slice_append]

end Document.Placed

theorem OuterLink.media?_of_sameAlias {l l' : OuterLink} {aliases : List Text} {k : MediaLink}
    {d : Document} (ha : ∀ a ∈ aliases, Clean a) (hs : SameAlias l l') (ht : l'.title = l.title)
    (hk : l.media? d aliases = some k) (d' : Document) :
    l'.media? d' aliases =
      some ⟨k.aliasUsed, k.title, l'.params, l'.bytes, d'.spanOf l'.bytes⟩ := by
  obtain ⟨a, hal, rfl⟩ := Option.map_eq_some_iff.mp hk
  rw [OuterLink.media?, hs aliases ha, hal, ht]
  rfl

theorem OuterLink.title_eq_file {l : OuterLink} {aliases : List Text} {k : MediaLink}
    {d : Document} (ha : ∀ a ∈ aliases, Clean a) (hw : l.Written)
    (hk : l.media? d aliases = some k) : l.title = k.file := by
  obtain ⟨a, hal, rfl⟩ := Option.map_eq_some_iff.mp hk
  obtain ⟨r, hr⟩ := hw.alias_prefix ha hal
  have hdrop : l.title.drop (a.length + 1) = r := by
    rw [← hr, List.drop_append_of_le_length (by simp), List.drop_of_length_le (by simp),
      List.nil_append]
  rw [MediaLink.file, hdrop, ← hr]
  simp

theorem Document.exists_outer {t : Text} {aliases : List Text} {before after : List MediaLink}
    {k : MediaLink} (ha : ∀ a ∈ aliases, Clean a)
    (hk : (ofText t).mediaLinks aliases = .ok (before ++ k :: after)) : ∃ ahead l behind,
    (ofText t).outerLinks = ahead ++ l :: behind ∧ l.media? (ofText t) aliases = some k ∧
    ahead.filterMap (OuterLink.media? (ofText t) aliases) = before ∧
    behind.filterMap (OuterLink.media? (ofText t) aliases) = after := by
  rw [mediaLinks_eq ha, Except.ok.injEq, List.filterMap_eq_append_iff] at hk
  obtain ⟨ls, rest, hl, hbefore, hrest⟩ := hk
  obtain ⟨quiet, l, behind, rfl, hq, hlk, hafter⟩ := List.filterMap_eq_cons_iff.mp hrest
  refine ⟨ls ++ quiet, l, behind, by rw [hl, List.append_assoc], hlk, ?_, hafter⟩
  rw [List.filterMap_append, hbefore, List.filterMap_eq_nil_iff.mpr hq, List.append_nil]

theorem Document.mediaLinks_replace {text text' : Text} {aliases : List Text} {x y z y' : List Cell}
    {pre : List Step} {ahead behind : List OuterLink} {d e : Depths} {l l' : OuterLink}
    {k : MediaLink} {n : Nat} (ha : ∀ a ∈ aliases, Clean a)
    (h : Placed text x y z pre l ahead d e) (h' : Placed text' x y' z pre l' ahead d e)
    (hbehind : (ofText text).outerLinks = ahead ++ l :: behind)
    (hlen : (Cell.chars y').byteLength = (Cell.chars y).byteLength + n)
    (hs : SameAlias l l') (ht : l'.title = l.title) (hk : l.media? (ofText text) aliases = some k) :
    (ofText text').mediaLinks aliases = .ok
      (ahead.filterMap (OuterLink.media? (ofText text) aliases) ++
        ⟨k.aliasUsed, k.title, l'.params, ⟨k.bytes.start, k.bytes.stop + n⟩,
          (ofText text').spanOf ⟨k.bytes.start, k.bytes.stop + n⟩⟩ ::
        (behind.filterMap (OuterLink.media? (ofText text) aliases)).map
          (MediaLink.moved (ofText text') n)) := by
  obtain ⟨houter, hbytes⟩ := h.outerLinks_revised h' hbehind hlen
  have hkbytes : l.bytes = k.bytes := (bytes_of_media? hk).symm
  have hl' := media?_of_sameAlias ha hs ht hk (ofText text')
  rw [hbytes, hkbytes] at hl'
  have hahead : ∀ o ∈ ahead,
      o.media? (ofText text') aliases = o.media? (ofText text) aliases := by
    intro o ho
    have hstop : o.bytes.stop ≤ (Cell.chars x).byteLength := by
      rw [← h.start_eq]
      exact stop_le_of_outerLinks hbehind ho
    rw [h.chars_eq, h'.chars_eq]
    exact media?_congr h.parted h'.parted hstop aliases
  rw [mediaLinks_eq ha, houter, List.filterMap_append, List.filterMap_cons, hl',
    filterMap_media?_shift (ofText text), List.filterMap_congr hahead]

/-- Inserting alternative text changes one link of the document, by one parameter beside its
caption, and moves the links behind it. -/
theorem mediaLinks_insertAlt {text text' alt caption head tail : Text} {aliases : List Text}
    {before after : List MediaLink} {k : MediaLink} {l : OuterLink}
    (ha : ∀ a ∈ aliases, Clean a)
    (hk : (ofText text).mediaLinks aliases = .ok (before ++ k :: after))
    (hl : l ∈ (ofText text).outerLinks) (hbytes : l.bytes = k.bytes) (hkeeps : l.Keeps)
    (hfirst : text.breakOn? (text.slice k.bytes.start k.bytes.stop) = some (head, tail))
    (hhead : head.byteLength = k.bytes.start) (halt : alt.Bare)
    (hend : (ofText (alt ++ [']'])).isBoundary alt.byteLength = true)
    (hinsert : insertAlt alt caption (text.slice k.bytes.start k.bytes.stop) text = text') :
    (∀ p ∈ k.params, ¬ Captions caption p) ∧ text' = text ∨
    ∃ params n, caption.trim ≠ [] ∧ Gains alt caption l.Level k.params params ∧
      text' = head ++ render k.file params ++ tail ∧
      text'.byteLength = text.byteLength + n ∧
      (ofText text').mediaLinks aliases = .ok (before ++
        ⟨k.aliasUsed, k.title, params, ⟨k.bytes.start, k.bytes.stop + n⟩,
          (ofText text').spanOf ⟨k.bytes.start, k.bytes.stop + n⟩⟩ ::
        after.map (MediaLink.moved (ofText text') n)) := by
  obtain ⟨ahead, l', behind, houter, hmedia, hbefore, hafter⟩ := exists_outer ha hk
  have hsame : l'.bytes = k.bytes ∧ l'.params = k.params := by
    obtain ⟨a, -, rfl⟩ := Option.map_eq_some_iff.mp hmedia
    exact ⟨rfl, rfl⟩
  obtain rfl : l = l' := eq_of_start_eq houter hl
    (congrArg ByteRange.start (hbytes.trans hsame.1.symm))
  obtain ⟨x, y, z, pre, d, e, hp, -⟩ := exists_placed houter
  have htext := hp.chars_eq
  have hstart : k.bytes.start = (Cell.chars x).byteLength := by
    rw [← hbytes]
    exact hp.start_eq
  have hslice : text.slice k.bytes.start k.bytes.stop = Cell.chars y := by
    rw [← hbytes, hp.slice_eq]
  rw [hslice] at hfirst hinsert
  have hbreak := Text.breakOn?_eq_append hfirst
  rw [htext, List.append_assoc] at hbreak
  obtain ⟨rfl, htail⟩ := Text.append_inj_of_byteLength hbreak (hstart.symm.trans hhead.symm)
  obtain rfl := List.append_cancel_left htail
  have hparted : alt.Parted [']'] := (isBoundary_append alt [']']).mp hend
  rw [← hsame.2]
  rcases hp.insertAlt_eq hkeeps hfirst halt hparted caption with
    ⟨hno, hsame⟩ | ⟨y', l', u, w, v, hedit, hput, hp', ht, hne, hgain, hs⟩
  · exact .inl ⟨hno, hinsert.symm.trans hsame⟩
  · obtain rfl := hinsert.symm.trans hedit
    refine .inr ⟨l'.params, w.byteLength, hne, hgain, ?_, ?_, ?_⟩
    · rw [hp'.text_eq_render, ht, title_eq_file ha hp.written hmedia, List.append_assoc]
    · have hn := hput.byteLength_eq
      rw [htext]
      simp only [Text.byteLength_append]
      omega
    · have hall := mediaLinks_replace ha hp hp' houter hput.byteLength_eq hs ht hmedia
      rwa [hbefore, hafter] at hall

/-- A captioned image in a template, and another behind it. -/
def boxedImage : Text :=
  "\x7b\x7bBox|[[File:A|left|a [[File:B]] b]]\x7d\x7d [[File:C]]".toList

theorem mediaLinks_insertAlt_boxedImage : ∃ l ∈ (ofText boxedImage).outerLinks, ∃ params n,
    Gains "alt=x".toList "a File:B b".toList l.Level
      ["left".toList, "a [[File:B]] b".toList] params ∧
    ∃ text', text'.byteLength = boxedImage.byteLength + n ∧
      (ofText text').mediaLinks ["File".toList] = .ok
        [⟨"File".toList, "A".toList, params, ⟨6, 36 + n⟩, (ofText text').spanOf ⟨6, 36 + n⟩⟩,
          MediaLink.moved (ofText text') n
            ⟨"File".toList, "C".toList, [], ⟨39, 49⟩, ⟨39, 10⟩⟩] := by
  have hl : ∃ l ∈ (ofText boxedImage).outerLinks, l.bytes = ⟨6, 36⟩ ∧ l.Keeps := by
    decide +kernel
  obtain ⟨l, hl, hbytes, hkeeps⟩ := hl
  have hlinks : (ofText boxedImage).mediaLinks ["File".toList] = .ok ([] ++
      ⟨"File".toList, "A".toList, ["left".toList, "a [[File:B]] b".toList], ⟨6, 36⟩, ⟨6, 30⟩⟩ ::
      [⟨"File".toList, "C".toList, [], ⟨39, 49⟩, ⟨39, 10⟩⟩]) := by
    decide +kernel
  have hfirst : boxedImage.breakOn? (boxedImage.slice 6 36) =
      some (boxedImage.take 6, boxedImage.drop 36) := by
    decide +kernel
  have halt : Text.Bare "alt=x".toList := by decide
  have hinsert : ∃ text', insertAlt "alt=x".toList "a File:B b".toList
      (boxedImage.slice 6 36) boxedImage = text' := ⟨_, rfl⟩
  obtain ⟨text', hinsert⟩ := hinsert
  rcases mediaLinks_insertAlt (by decide +kernel) hlinks hl hbytes hkeeps hfirst
    (by decide +kernel) halt (by decide +kernel) hinsert with
    ⟨hno, -⟩ | ⟨params, n, -, hgain, -, hlen, hlinks'⟩
  · exact absurd (by decide +kernel) (hno "a [[File:B]] b".toList (by simp))
  · exact ⟨l, hl, params, n, hgain, text', hlen, hlinks'⟩

/-- A caption that leaves a template open takes in the new parameter behind it. -/
theorem insertAlt_behind_open_template :
    let text : Text := "[[File:a|cap \x7b\x7bc]]".toList
    let text' := insertAlt "alt=x".toList "cap".toList text text
    (ofText text).mediaLinks ["File".toList] = .ok
      [⟨"File".toList, "a".toList, ["cap \x7b\x7bc".toList], ⟨0, 18⟩, ⟨0, 18⟩⟩] ∧
    (∀ l ∈ (ofText text).outerLinks, l.Keeps) ∧ text.breakOn? text = some ([], []) ∧
    Text.trim "cap \x7b\x7bc".toList ≠ "cap".toList ∧
    displayText "cap \x7b\x7bc".toList = "cap".toList ∧
    (ofText text').mediaLinks ["File".toList] = .ok
      [⟨"File".toList, "a".toList, ["cap \x7b\x7bc| alt=x".toList], ⟨0, 25⟩, ⟨0, 25⟩⟩] ∧
    ∀ bytes span, (ofText text').mediaLinks ["File".toList] ≠ .ok
      [⟨"File".toList, "a".toList, ["cap \x7b\x7bc".toList, " alt=x".toList], bytes, span⟩] := by
  have hlinks : (ofText (insertAlt "alt=x".toList "cap".toList "[[File:a|cap \x7b\x7bc]]".toList
      "[[File:a|cap \x7b\x7bc]]".toList)).mediaLinks ["File".toList] = .ok
      [⟨"File".toList, "a".toList, ["cap \x7b\x7bc| alt=x".toList], ⟨0, 25⟩, ⟨0, 25⟩⟩] := by
    decide +kernel
  refine ⟨by decide +kernel, by decide +kernel, by decide +kernel, by decide +kernel,
    by decide +kernel, hlinks, fun bytes span he => ?_⟩
  have hparams := hlinks.symm.trans he
  simp at hparams

end Wikitext
