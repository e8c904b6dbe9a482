import Wikitext.Proofs.CaptionAcceptance
import Wikitext.Proofs.CaptionParams

/-! The caption of a link that gains alternative text. It is found again among the parameters, as
the new one has a name, and shows what it showed: a cluster boundary lies in front of it, and what
comes behind it in a template left open is not shown. -/

namespace Wikitext

open Step OuterLink Document Lexeme

/-- What is written behind a text that leaves a template open is not shown. -/
theorem displayText_append_bar {p alt : Text} {z : List Cell} {ss : List Step} {f : Depths}
    (h : Scans .zero (Cell.ofText p) z ss f) (hz : Cell.atBoundary z = true)
    (hopen : 0 < f.template) (hp : p.Parted ('|' :: ' ' :: alt)) (halt : alt.Bare) :
    displayText (p ++ '|' :: ' ' :: alt) = displayText p := by
  obtain ⟨ws, hws, -, hwk⟩ := exists_scans_bare (d := f) (z := []) halt.blank_cons nofun
  have hbound : Cell.atBoundary (Cell.ofText (' ' :: alt) ++ []) = true :=
    Cell.atBoundary_ofText_append (List.cons_ne_nil _ _) _
  have hall := (h.replace (replaces_opener (a := Cell.bar)
    (w := Cell.ofText (' ' :: alt) ++ []) ⟨rfl, by decide⟩ hz.symm)).append
      ((scans_bar hbound).append hws)
  have hcells : Cell.ofText (p ++ '|' :: ' ' :: alt) =
      Cell.ofText p ++ ([Cell.bar] ++ Cell.ofText (' ' :: alt)) := by
    have hadded := Text.ofText_append (parted_bar_blank [] alt)
    rw [List.nil_append, Cell.ofText_singleton] at hadded
    rw [Text.ofText_append hp]
    exact congrArg _ hadded
  have hhidden : ∀ s ∈ [⟨.pipe, [Cell.bar], f⟩] ++ ws, 0 < s.depths.template := by
    intro s hs
    rcases List.mem_append.mp hs with hs | hs
    · obtain rfl : s = ⟨.pipe, [Cell.bar], f⟩ := by simpa using hs
      exact hopen
    · rw [(hwk s hs).2]
      exact hopen
  rw [displayText, displayText, Document.steps, Document.steps, cells_ofText, cells_ofText, hcells,
    scan, scan, hall.scanFrom_eq_of_end, (h.replace (replaces_nil hz)).scanFrom_eq_of_end,
    List.foldl_append, Reading.foldl_read_inside hhidden]

namespace Document.Placed

variable {t : Text} {x y z : List Cell} {pre : List Step} {l : OuterLink}
  {before : List OuterLink} {d e : Depths}

theorem exists_param (h : Placed t x y z pre l before d e) {a b : List Text} {p : Text}
    (hp : l.params = a ++ p :: b) : ∃ r m n v g,
    Cell.ofText t = m ++ (n ++ (l.closing.cells ++ z)) ∧ Cell.chars m = r ++ ['|'] ∧
    Cell.chars n = p ++ b.flatMap ('|' :: ·) ∧
    Cell.atBoundary (n ++ (l.closing.cells ++ z)) = true ∧
    Scans l.opening.depths n (l.closing.cells ++ z) v g ∧
    g.template = l.closing.depths.template := by
  obtain ⟨u, s, v, m, n, g, hi, hk, hd, -, hv, rfl, hm, hn, hc⟩ := h.exists_separator hp
  have hbar : s.text = ['|'] := h.written.separators s (by simp [hi]) hk
  have hsep : ∀ s ∈ v, separates l.opening.depths.template s = true → s.text = ['|'] := by
    intro s hs hcut
    exact h.written.separators s (by simp [hi, hs]) (separates_iff.mp hcut).1
  obtain ⟨hfirst, hmore⟩ := List.cons.inj hv
  have hclose := closes_iff.mp h.stands.closing
  obtain ⟨k, hk'⟩ := hc.exists_after (by simp [hclose.1])
  rw [hclose.1, hc.depths_of_getLast (p := [])] at hk'
  refine ⟨Cell.chars x ++ textOf (l.opening :: u), x ++ (l.opening.cells ++ m), n, v, g, ?_, ?_, ?_,
    hm.boundary_after (p := l.opening :: u) (by simp [hk]), hd ▸ hn,
    (Depths.after_eq_linkClose hk').2⟩
  · rw [h.cells]
    simp only [List.append_assoc]
  · rw [Cell.chars_append, ← hm.textOf_eq]
    simp [hbar]
  · rw [← hn.textOf_eq, textOf_segments hsep, hfirst, ← hmore, List.flatMap_map]
    rfl

/-- A cluster boundary lies in front of each parameter, whatever stands there. -/
theorem parted_param (h : Placed t x y z pre l before d e) {p : Text} (hp : p ∈ l.params) :
    Text.Parted [' '] p := by
  obtain ⟨a, b, hab⟩ := List.append_of_mem hp
  obtain ⟨r, m, n, -, -, hcells, hm, hn, hbound, -, -⟩ := h.exists_param hab
  have hparted := (Text.parted_of_ofText_eq_append hcells).mpr hbound
  rw [hm, Cell.chars_append, hn] at hparted
  cases p with
  | nil => exact Text.parted_nil_right _
  | cons c p =>
    have hblank : Text.Parted ([] ++ [' ']) (c :: _) := hparted.congr_last rfl rfl
    exact hblank.congr_head rfl

theorem displayText_spaced (h : Placed t x y z pre l before d e) {p : Text} (hp : p ∈ l.params) :
    displayText (AltPlace.spaced p) = displayText p := by
  rw [AltPlace.spaced]
  split
  · rfl
  · exact displayText_blank_cons (h.parted_param hp)

/-- A parameter more behind a last one that leaves a template open is not shown. -/
theorem displayText_inside (h : Placed t x y z pre l before d e) {a : List Text} {p alt : Text}
    (hp : l.params = a ++ [p]) (hzero : l.opening.depths.template = 0) (hopen : ¬ l.Level)
    (halt : alt.Bare) : displayText (p ++ '|' :: ' ' :: alt) = displayText p := by
  obtain ⟨r, m, n, v, g, hcells, -, hn, hbound, ⟨ls, hpass, hgroups⟩, htemplate⟩ :=
    h.exists_param hp
  rw [List.flatMap_nil, List.append_nil] at hn
  have hend : Cell.atBoundary (l.closing.cells ++ z) = true := h.atBoundary_closing
  have hofText : Cell.ofText p = n := by
    rw [← hn]
    exact Text.ofText_chars_of_eq_append hcells hbound
  -- Read alone the parameter opens the same templates, whatever links are open around it.
  obtain ⟨ss, links, hss⟩ := hgroups.exists_of_link 0
  rw [hzero] at hss
  have hscan : Scans .zero (Cell.ofText p) (l.closing.cells ++ z) ss ⟨g.template, links⟩ :=
    ⟨ls, hofText ▸ hpass, hss⟩
  have hpos : 0 < g.template := by
    rw [htemplate]
    exact Nat.pos_of_ne_zero fun hno => hopen (hno.trans hzero.symm)
  have hparted : p.Parted ('|' :: ' ' :: alt) := by
    have hclosing := (Text.parted_of_ofText_eq_append
      (Text.ofText_chars_of_atBoundary hcells hbound)).mpr hend
    have hclose : Cell.chars l.closing.cells = LexemeKind.linkClose.literal := h.written.closing
    rw [hn, Cell.chars_append, hclose] at hclosing
    exact hclosing.congr_head rfl
  exact displayText_append_bar hscan hend hpos hparted halt

end Document.Placed

/-- `Hides keywords alt ps ps'`: the parameters `ps` become `ps'` by a new one beside the caption,
which is no caption any more: a blank in front of its `=` is read as a name, or the new parameter
has become part of it and makes it a keyword. -/
inductive Hides (keywords : List Text) (alt : Text) : List Text → List Text → Prop
  | named {u v : List Text} {p : Text} (hp : MediaLink.isCaption keywords ('=' :: p) = true)
      (hv : MediaLink.captionParam? keywords v = none) :
      Hides keywords alt (u ++ ('=' :: p) :: v)
        (u ++ (' ' :: (alt ++ [' '])) :: (' ' :: '=' :: p) :: v)
  | keyword {u : List Text} {p : Text} (hp : MediaLink.isCaption keywords p = true)
      (h : Text.trim (p ++ '|' :: ' ' :: alt) ∈ keywords) :
      Hides keywords alt (u ++ [p]) (u ++ [p ++ '|' :: ' ' :: alt])

theorem Chosen.isCaption {keywords u : List Text} {c p : Text} (h : Chosen c u p [] false)
    (hc : MediaLink.captionOf? keywords (u ++ [p]) = some c) :
    MediaLink.isCaption keywords p = true := by
  obtain ⟨q, hq, hcaption, hshown, -⟩ := MediaLink.captionOf?_eq_some hc
  cases h with
  | displayed _ hu _ =>
    rcases List.mem_append.mp hq with hq | hq
    · exact absurd (hshown.trans (MediaLink.trim_of_captionOf? hc).2.symm) (hu q hq)
    · obtain rfl : q = p := by simpa using hq
      exact hcaption

theorem Gains.captionOf? {keywords ps ps' : List Text} {alt c : Text} {level : Prop}
    (h : Gains alt c level ps ps') (hc : MediaLink.captionOf? keywords ps = some c)
    (halt : isNamedParam alt = true)
    (hspaced : ∀ p ∈ ps, displayText (AltPlace.spaced p) = displayText p)
    (hinside : ∀ u p, ps = u ++ [p] → ¬ level →
      displayText (p ++ '|' :: ' ' :: alt) = displayText p) :
    MediaLink.captionOf? keywords ps' = some c ∨ Hides keywords alt ps ps' := by
  have hblank : isNamedParam (' ' :: alt) = true := isNamedParam_blank_cons halt
  cases h with
  | @before u v p =>
    have hnew : MediaLink.isCaption keywords (' ' :: (alt ++ [' '])) = false :=
      MediaLink.isCaption_of_named (isNamedParam_append hblank [' '])
    rcases MediaLink.captionOf?_before u v hnew (hspaced p (by simp)) with
      hsame | ⟨hhead, hp, hv⟩
    · exact .inl (hsame.trans hc)
    · obtain ⟨value, rfl⟩ := List.head?_eq_some_iff.mp hhead
      exact .inr (.named (List.find?_some hp) hv)
  | @behind u p =>
    have hnew : MediaLink.isCaption keywords (' ' :: alt) = false :=
      MediaLink.isCaption_of_named hblank
    refine .inl ?_
    rw [MediaLink.captionOf?, MediaLink.captionParam?_behind u hnew]
    exact hc
  | @inside u p hchosen hlevel =>
    have hp := hchosen.isCaption hc
    by_cases hkeyword : Text.trim (p ++ '|' :: ' ' :: alt) ∈ keywords
    · exact .inr (.keyword hp hkeyword)
    · refine .inl ?_
      rw [MediaLink.captionOf?, MediaLink.captionParam?_last u hp] at hc
      rw [MediaLink.captionOf?,
        MediaLink.captionParam?_last u (MediaLink.isCaption_append_bar hp hkeyword),
        Option.map_some, hinside u p rfl hlevel]
      exact hc

theorem Text.breakOn?_self (t : Text) : t.breakOn? t = some ([], []) := by
  obtain ⟨p, q, h⟩ := Text.exists_breakOn? (List.append_nil t).symm (p := [])
  have hlen := congrArg List.length (Text.breakOn?_eq_append h)
  simp only [List.length_append] at hlen
  have hp : p = [] := List.eq_nil_of_length_eq_zero (by omega)
  have hq : q = [] := List.eq_nil_of_length_eq_zero (by omega)
  rw [h, hp, hq]

/-- A link that stands alone keeps its caption when it gains a named parameter beside it, unless the
new parameter hides the caption. -/
theorem caption?_insertAlt {aliases keywords : List Text} {markup alt c : Text} {k : MediaLink}
    (ha : ∀ a ∈ aliases, Clean a) (hk : (ofText markup).mediaLinks aliases = .ok [k])
    (hall : k.bytes = ⟨0, markup.byteLength⟩) (hc : k.caption? keywords = some c)
    (hnamed : isNamedParam alt = true) (halt : alt.Bare)
    (hend : (ofText (alt ++ [']'])).isBoundary alt.byteLength = true) :
    ∃ k', (ofText (insertAlt alt c markup markup)).mediaLinks aliases = .ok [k'] ∧
      k'.bytes = ⟨0, (insertAlt alt c markup markup).byteLength⟩ ∧ k'.file = k.file ∧
      (k'.caption? keywords = some c ∨ Hides keywords alt k.params k'.params) := by
  obtain ⟨l, behind, y, z, pre, d, e, houter, hmedia, hzero, hp⟩ :=
    exists_first_outer ha hk (by rw [hall])
  have hmarkup : markup = Cell.chars y ++ Cell.chars z := hp.chars_eq
  have hbytes : (⟨0, (Cell.chars y).byteLength⟩ : ByteRange) = ⟨0, markup.byteLength⟩ := by
    rw [← hall, bytes_of_media? hmedia, OuterLink.bytes, hzero, hp.text_eq, Nat.zero_add]
  have hz : z = [] := by
    have hlen : (Cell.chars y).byteLength = markup.byteLength := congrArg ByteRange.stop hbytes
    rw [hmarkup, Text.byteLength_append] at hlen
    have hchars : Cell.chars z = [] := Text.eq_nil_of_byteLength_eq_zero (by omega)
    simpa [Cell.chars] using hchars
  subst hz
  rw [Cell.chars_nil, List.append_nil] at hmarkup
  subst hmarkup
  -- Nothing stands ahead of the link, so it opens outside of all templates.
  have htemplate : l.opening.depths.template = 0 := by
    rw [hp.depths_eq.2, hp.ahead.of_nil.2]
    rfl
  have hkeeps : l.Keeps := fun s _ => htemplate ▸ Nat.zero_le _
  have hbehind : behind.filterMap (OuterLink.media? (ofText (Cell.chars y)) aliases) = [] := by
    rw [mediaLinks_eq ha, houter, List.filterMap_cons, hmedia, Except.ok.injEq] at hk
    exact (List.cons.inj hk).2
  have hparams : l.params = k.params := by
    obtain ⟨a, -, rfl⟩ := Option.map_eq_some_iff.mp hmedia
    rfl
  have hparted : alt.Parted [']'] := (isBoundary_append alt [']']).mp hend
  rcases hp.insertAlt_eq hkeeps (Text.breakOn?_self _) halt hparted c with
    ⟨hno, -⟩ | ⟨y', l', u, w, v, hedit, hput, hp', htitle, -, hgain, hsame⟩
  · obtain ⟨q, hq, hcaptions⟩ := MediaLink.exists_of_captionOf? hc
    exact absurd hcaptions (hno q (hparams ▸ hq))
  · have hlinks := mediaLinks_replace ha hp hp' houter hput.byteLength_eq hsame htitle hmedia
    rw [hbehind, List.filterMap_nil, List.map_nil, List.nil_append, ← hedit] at hlinks
    refine ⟨_, hlinks, ?_, rfl, ?_⟩
    · rw [hedit, hall, ← hput.byteLength_eq]
      simp
    · rw [← hparams]
      exact hgain.captionOf? (hparams ▸ hc) hnamed (fun q hq => hp.displayText_spaced hq)
        fun a q hq hopen => hp.displayText_inside hq htemplate hopen halt

theorem Hides.exists_param {keywords ps ps' : List Text} {alt : Text}
    (h : Hides keywords alt ps ps') : (∃ p ∈ ps, p.head? = some '=') ∨
      ∃ p ∈ ps.getLast?, MediaLink.isCaption keywords p = true := by
  cases h with
  | @named u v p => exact .inl ⟨'=' :: p, by simp, rfl⟩
  | @keyword u p hp => exact .inr ⟨p, List.getLast?_concat, hp⟩

/-- An image whose caption holds a link and stands between two options. -/
def sizedImage : Text :=
  "[[File:A|thumb|a [[b|c]] \x7b\x7bd\x7d\x7d|220px]]".toList

theorem caption?_insertAlt_sizedImage : ∃ k',
    (ofText (insertAlt "alt=x".toList "a c".toList sizedImage sizedImage)).mediaLinks
      ["File".toList] = .ok [k'] ∧ k'.caption? ["thumb".toList] = some "a c".toList := by
  let params := ["thumb".toList, "a [[b|c]] \x7b\x7bd\x7d\x7d".toList, "220px".toList]
  have hk : (ofText sizedImage).mediaLinks ["File".toList] = .ok
      [⟨"File".toList, "A".toList, params, ⟨0, 38⟩, ⟨0, 38⟩⟩] := by
    decide +kernel
  have hcaption : MediaLink.captionOf? ["thumb".toList] params = some "a c".toList := by
    decide +kernel
  have hnamed : isNamedParam "alt=x".toList = true := by decide +kernel
  obtain ⟨k', hlinks, -, -, hc⟩ := caption?_insertAlt (by decide) hk (by decide +kernel)
    hcaption hnamed (by decide) (by decide +kernel)
  exact ⟨k', hlinks, hc.resolve_right fun hhides => absurd hhides.exists_param (by decide +kernel)⟩

/-- The blank in front of a caption that begins with `=` hides it. So does an image keyword that is
what has become of a caption which leaves a template open. -/
theorem insertAlt_hides_caption :
    let equals : Text := "[[File:a|=foo]]".toList
    let opening : Text := "[[File:a|cap \x7b\x7bc]]".toList
    let keywords : List Text := ["cap \x7b\x7bc| alt=x".toList]
    isNamedParam "alt=x".toList = true ∧ Text.Bare "alt=x".toList ∧
    (ofText equals).mediaLinks ["File".toList] = .ok
      [⟨"File".toList, "a".toList, ["=foo".toList], ⟨0, 15⟩, ⟨0, 15⟩⟩] ∧
    MediaLink.captionOf? [] ["=foo".toList] = some "=foo".toList ∧
    (ofText (insertAlt "alt=x".toList "=foo".toList equals equals)).mediaLinks
      ["File".toList] = .ok
      [⟨"File".toList, "a".toList, [" alt=x ".toList, " =foo".toList], ⟨0, 24⟩, ⟨0, 24⟩⟩] ∧
    MediaLink.captionOf? [] [" alt=x ".toList, " =foo".toList] = none ∧
    (ofText opening).mediaLinks ["File".toList] = .ok
      [⟨"File".toList, "a".toList, ["cap \x7b\x7bc".toList], ⟨0, 18⟩, ⟨0, 18⟩⟩] ∧
    MediaLink.captionOf? keywords ["cap \x7b\x7bc".toList] = some "cap".toList ∧
    (ofText (insertAlt "alt=x".toList "cap".toList opening opening)).mediaLinks
      ["File".toList] = .ok
      [⟨"File".toList, "a".toList, ["cap \x7b\x7bc| alt=x".toList], ⟨0, 25⟩, ⟨0, 25⟩⟩] ∧
    MediaLink.captionOf? keywords ["cap \x7b\x7bc| alt=x".toList] = none := by
  decide +kernel

end Wikitext
