import Wikitext.Proofs.AltFilling

/-! The caption that is shown for a link is accepted when alternative text is added to the link. It
is what one of the parameters displays, and the search for it goes through the same parameters,
which a reading without aliases finds too. -/

namespace Wikitext

open Step OuterLink Document

theorem AltPlace.gains_insert {alt caption : Text} {ps : List Text} {place : AltPlace}
    (h : ofCaption? caption ps = some place) :
    Gains alt caption True ps (place.insert alt ps) := by
  obtain ⟨-, u, p, v, written, rfl, hc, ⟨hw, rfl⟩ | ⟨⟨rfl, rfl⟩, rfl⟩⟩ := exists_chosen h
  · rw [insert_before_length]
    exact .before hc hw
  · rw [insert, List.append_assoc]
    exact .behind hc trivial

theorem AltPlace.byteLength_le_spaced (p : Text) :
    p.byteLength ≤ Text.byteLength (spaced p) := by
  rw [spaced]
  split
  · exact Nat.le_refl _
  · exact Nat.le_add_left _ _

theorem Gains.byteLength_lt {alt caption : Text} {level : Prop} {ps ps' : List Text}
    (h : Gains alt caption level ps ps') (title : Text) :
    Text.byteLength (render title ps) + alt.byteLength < Text.byteLength (render title ps') := by
  have hbar : '|'.utf8Size = 1 := rfl
  cases h with
  | @before u v p =>
    have hspaced := AltPlace.byteLength_le_spaced p
    simp only [render, List.flatMap_append, List.flatMap_cons, Text.byteLength_append,
      Text.byteLength_cons, hbar]
    omega
  | behind | inside =>
    simp only [render, List.flatMap_append, List.flatMap_cons, Text.byteLength_append,
      Text.byteLength_cons, hbar]
    omega

theorem MediaLink.exists_ofCaption? {keywords params : List Text} {c : Text}
    (h : captionOf? keywords params = some c) :
    ∃ place, AltPlace.ofCaption? c params = some place := by
  obtain ⟨p, hp, hcaptions⟩ := exists_of_captionOf? h
  cases hplace : AltPlace.ofCaption? c params with
  | none => exact absurd hcaptions (AltPlace.ofCaption?_eq_none hplace p hp)
  | some place => exact ⟨place, rfl⟩

theorem MediaLink.trim_of_captionOf? {keywords params : List Text} {c : Text}
    (h : captionOf? keywords params = some c) : c ≠ [] ∧ c.trim = c := by
  obtain ⟨hc, hne⟩ := Option.filter_eq_some_iff.mp h
  obtain ⟨p, -, rfl⟩ := Option.map_eq_some_iff.mp hc
  exact ⟨by simpa using hne, displayText_trim p⟩

namespace Document

theorem exists_first_outer {t : Text} {aliases : List Text} {k : MediaLink} {ks : List MediaLink}
    (ha : ∀ a ∈ aliases, Clean a) (hk : (ofText t).mediaLinks aliases = .ok (k :: ks))
    (hstart : k.bytes.start = 0) : ∃ l behind y z pre d e,
    (ofText t).outerLinks = l :: behind ∧ l.media? (ofText t) aliases = some k ∧ l.start = 0 ∧
      Placed t [] y z pre l [] d e := by
  have hfirst : (ofText t).mediaLinks aliases = .ok ([] ++ k :: ks) := hk
  obtain ⟨ahead, l, behind, houter, hl, -, -⟩ := exists_outer ha hfirst
  have hzero : l.start = 0 := by
    rw [← hstart, bytes_of_media? hl]
    rfl
  have hahead : ahead = [] := by
    refine List.eq_nil_iff_forall_not_mem.mpr fun o ho => ?_
    have hlt := start_lt_of_outerLinks houter ho
    omega
  subst hahead
  obtain ⟨x, y, z, pre, d, e, hp, -⟩ := exists_placed houter
  have hx : x = [] := by
    have hchars := Text.eq_nil_of_byteLength_eq_zero (hp.start_eq.symm.trans hzero)
    simpa [Cell.chars] using hchars
  subst hx
  exact ⟨l, behind, y, z, pre, d, e, houter, hl, hzero, hp⟩

theorem addAlt?_of_first {t : Text} {l : OuterLink} {behind : List OuterLink}
    (h : (ofText t).outerLinks = l :: behind) (hstart : l.start = 0) (alt caption : Text) :
    addAlt? alt caption t = (AltPlace.ofCaption? caption l.params).map fun place =>
      render l.title (place.insert alt l.params) ++ t.drop l.text.length := by
  rw [addAlt?, h]
  exact if_pos hstart

end Document

/-- The caption of a link with which some markup begins is accepted in every text that has the
markup: one parameter more is written beside a parameter that is the caption, in the first copy of
the markup. -/
theorem insertAlt_accepts_caption {aliases : List Text} (ha : ∀ a ∈ aliases, Clean a)
    (keywords : List Text) (markup alt : Text) : ∃ links,
    (ofText markup).mediaLinks aliases = .ok links ∧
    ∀ k ∈ links.head?, k.bytes.start = 0 → ∀ c ∈ k.caption? keywords,
      ∀ text : Text, markup <:+: text → c ≠ [] ∧ c.trim = c ∧ ∃ head tail rest params,
        text.breakOn? markup = some (head, tail) ∧
        markup = render k.file k.params ++ rest ∧
        k.bytes.stop = (render k.file k.params).byteLength ∧
        Gains alt c True k.params params ∧
        insertAlt alt c markup text = head ++ (render k.file params ++ rest) ++ tail ∧
        text.byteLength + alt.byteLength < (insertAlt alt c markup text).byteLength := by
  refine ⟨_, mediaLinks_eq ha markup, fun k hk hstart c hc text htext => ?_⟩
  obtain ⟨ks, hks⟩ := List.head?_eq_some_iff.mp hk
  obtain ⟨l, behind, y, z, pre, d, e, houter, hmedia, hzero, hp⟩ :=
    exists_first_outer ha ((mediaLinks_eq ha markup).trans (congrArg Except.ok hks)) hstart
  have hfile : l.title = k.file := title_eq_file ha hp.written hmedia
  have hparams : l.params = k.params := by
    obtain ⟨a, -, rfl⟩ := Option.map_eq_some_iff.mp hmedia
    rfl
  have hmarkup : markup = Cell.chars y ++ Cell.chars z := hp.chars_eq
  have hrender : Cell.chars y = render k.file k.params := by
    rw [hp.text_eq_render, hfile, hparams]
  obtain ⟨place, hplace⟩ := MediaLink.exists_ofCaption? hc
  have hgain : Gains alt c True k.params (place.insert alt k.params) :=
    AltPlace.gains_insert hplace
  obtain ⟨p, q, htext⟩ := htext
  rw [List.append_assoc] at htext
  obtain ⟨head, tail, hbreak⟩ := Text.exists_breakOn? htext.symm
  have hne : markup ≠ [] := by
    rw [hmarkup, hrender]
    exact List.cons_ne_nil _ _
  have hrest : markup.drop l.text.length = Cell.chars z := by
    rw [hp.text_eq, hmarkup, List.drop_left]
  have hinsert : insertAlt alt c markup text =
      head ++ (render k.file (place.insert alt k.params) ++ Cell.chars z) ++ tail := by
    rw [insertAlt, if_neg hne, hbreak, addAlt?_of_first houter hzero, hparams, hplace, hrest,
      hfile]
    rfl
  obtain ⟨hcne, htrim⟩ := MediaLink.trim_of_captionOf? hc
  refine ⟨hcne, htrim, head, tail, Cell.chars z, _, hbreak, hrender ▸ hmarkup, ?_, hgain, hinsert,
    ?_⟩
  · have hbytes := bytes_of_media? hmedia
    rw [hbytes, OuterLink.bytes, hzero, hp.text_eq, hrender, Nat.zero_add]
  · have hlonger := hgain.byteLength_lt k.file
    rw [hinsert, Text.breakOn?_eq_append hbreak, hmarkup, hrender]
    simp only [Text.byteLength_append]
    omega

/-- An image with its caption between two options, and a closer behind it. -/
def trailedImage : Text :=
  "[[File:A|thumb|a [[b|c]] \x7b\x7bd\x7d\x7d|220px]] e]]".toList

theorem insertAlt_accepts_caption_trailedImage :
    let text : Text := "<!-- f -->".toList ++ (trailedImage ++ trailedImage)
    let params := ["thumb".toList, "a [[b|c]] \x7b\x7bd\x7d\x7d".toList, "220px".toList]
    (∃ rest params', trailedImage = render "File:A".toList params ++ rest ∧
      Gains "alt=g".toList "a c".toList True params params') ∧
    text.byteLength + 5 <
      (insertAlt "alt=g".toList "a c".toList trailedImage text).byteLength := by
  intro text params
  have hlinks : (ofText trailedImage).mediaLinks ["File".toList] = .ok
      [⟨"File".toList, "A".toList, params, ⟨0, 38⟩, ⟨0, 38⟩⟩] := by
    decide +kernel
  have haliases : ∀ a ∈ ["File".toList], Clean a := by decide
  obtain ⟨links, hall, haccept⟩ :=
    insertAlt_accepts_caption haliases ["thumb".toList] trailedImage "alt=g".toList
  obtain rfl := Except.ok.inj (hall.symm.trans hlinks)
  have hcopy : trailedImage <:+: text := ⟨"<!-- f -->".toList, trailedImage, by simp [text]⟩
  obtain ⟨-, -, head, tail, rest, params', -, hmarkup, -, hgain, -, hlength⟩ :=
    haccept _ rfl rfl "a c".toList (by decide +kernel) text hcopy
  exact ⟨⟨rest, params', hmarkup, hgain⟩, hlength⟩

end Wikitext
