import Wikitext.AltFilling
import Wikitext.Proofs.AltSearch
import Wikitext.Proofs.ShownText

/-! One alternative text given to all the links of an article that lack one. A turn takes its link
off the list of those that lack one and leaves the rest of the list alone, wherever the links move;
so what stays on the list are the links without a caption. -/

namespace Wikitext

open Step OuterLink Document

theorem isAltParam_blank_cons {names : List Text} {alt : Text} (h : isAltParam names alt = true) :
    isAltParam names (' ' :: alt) = true := h

theorem isAltParam_append_blank {names : List Text} {alt : Text}
    (h : isAltParam names alt = true) : isAltParam names (alt ++ [' ']) = true := by
  simp only [isAltParam, List.any_eq_true, Bool.and_eq_true, List.isPrefixOf_iff_prefix] at h ⊢
  obtain ⟨name, hname, hne, hp⟩ := h
  refine ⟨name, hname, hne, hp.trans ?_⟩
  have hstart : alt.trimStart ≠ [] := by
    intro hnil
    rw [hnil] at hp
    exact absurd (List.prefix_nil.mp hp) (by simp)
  have happ : (alt ++ [' ']).dropWhile isWhite = alt.dropWhile isWhite ++ [' '] := by
    rw [List.dropWhile_append, if_neg]
    simpa [Text.trimStart] using hstart
  rw [Text.trimStart, Text.trimStart, happ]
  exact List.prefix_append _ _

namespace Gains

theorem any_isAltParam {alt caption : Text} {level : Prop} {ps ps' names : List Text}
    (h : Gains alt caption level ps ps') (hne : caption.trim ≠ [])
    (hlevel : level ∨ AltPlace.ofCaption? caption ps ≠ some .last)
    (halt : isAltParam names alt = true) : ps'.any (isAltParam names) = true := by
  rw [List.any_eq_true]
  cases h with
  | before => exact ⟨_, by simp, isAltParam_blank_cons (isAltParam_append_blank halt)⟩
  | behind => exact ⟨_, by simp, isAltParam_blank_cons halt⟩
  | inside hc hno =>
    rcases hlevel with hlevel | hplace
    · exact absurd hlevel hno
    · exact absurd (AltPlace.ofCaption?_of_chosen_last hc hne) hplace

end Gains

theorem MediaLink.exists_of_captionOf? {keywords params : List Text} {c : Text}
    (h : captionOf? keywords params = some c) : ∃ p ∈ params, Captions c p := by
  obtain ⟨hc, hne⟩ := Option.filter_eq_some_iff.mp h
  obtain ⟨p, hp, rfl⟩ := Option.map_eq_some_iff.mp hc
  have hmem : p ∈ params := by simpa using List.mem_of_find?_eq_some hp
  refine ⟨p, hmem, ?_, .inr (displayText_trim p).symm⟩
  rw [displayText_trim]
  simpa using hne

namespace OuterLink

/-- What the list of links without alternative text says of a link, wherever it stands: the text of
the link and its file, if it is a media link that lacks one. -/
def lacking? (a : NameTable) (l : OuterLink) : Option (Text × Text) :=
  if l.params.any (isAltParam a.altParams) then none
  else (l.alias? a.namespaces).map fun name =>
    (l.text, name ++ ':' :: l.title.drop (name.length + 1))

theorem text_of_lacking? {a : NameTable} {l : OuterLink} {e : Text × Text}
    (h : l.lacking? a = some e) : e.1 = l.text := by
  rw [lacking?] at h
  split at h
  · cases h
  · obtain ⟨n, -, rfl⟩ := Option.map_eq_some_iff.mp h
    rfl

theorem exists_alias_of_lacking? {a : NameTable} {l : OuterLink} {e : Text × Text}
    (h : l.lacking? a = some e) : ∃ n, l.alias? a.namespaces = some n := by
  rw [lacking?] at h
  split at h
  · cases h
  · obtain ⟨n, hn, -⟩ := Option.map_eq_some_iff.mp h
    exact ⟨n, hn⟩

theorem Keeps.lacking?_alone {l : OuterLink} (h : l.Keeps) (a : NameTable) :
    l.alone.lacking? a = l.lacking? a := by
  obtain ⟨htitle, hparams⟩ := List.cons.inj h.title_alone
  rw [lacking?, lacking?, htitle, hparams, alias?_alone, text_alone]

theorem filterMap_lacking?_shift (a : NameTable) (n : Nat) (ls : List OuterLink) :
    (ls.map (shift n)).filterMap (lacking? a) = ls.filterMap (lacking? a) := by
  rw [List.filterMap_map]
  rfl

end OuterLink

namespace Document

def lacking (d : Document) (a : NameTable) : List (Text × Text) :=
  d.outerLinks.filterMap (OuterLink.lacking? a)

theorem lacking?_eq_of_text {t : Text} {l l' : OuterLink} (hl : l ∈ (ofText t).outerLinks)
    (hl' : l' ∈ (ofText t).outerLinks) (hk : l.Keeps) (hk' : l'.Keeps) (htext : l'.text = l.text)
    (a : NameTable) : l'.lacking? a = l.lacking? a := by
  obtain ⟨_, _, _, _, _, _, _, hp⟩ := exists_placed_of_mem hl
  obtain ⟨_, _, _, _, _, _, _, hp'⟩ := exists_placed_of_mem hl'
  have halone := hp.outerLinks_alone hk
  rw [← hp.text_eq, ← htext, hp'.text_eq, hp'.outerLinks_alone hk'] at halone
  rw [← hk'.lacking?_alone, (List.cons.inj halone).1, hk.lacking?_alone]

theorem Grown.lacking_eq {alt t t' : Text} {before behind : List OuterLink} {l l' : OuterLink}
    {x u w v z : Text} (h : Grown alt t t' before l l' behind x u w v z) {a : NameTable}
    {e : Text × Text} (hl : l.lacking? a = some e) (hl' : l'.lacking? a = none) :
    (ofText t).lacking a = before.filterMap (lacking? a) ++ e :: behind.filterMap (lacking? a) ∧
      (ofText t').lacking a =
        before.filterMap (lacking? a) ++ behind.filterMap (lacking? a) := by
  rw [lacking, lacking, h.links, h.links', List.filterMap_append, List.filterMap_append,
    List.filterMap_cons, List.filterMap_cons, hl, hl', filterMap_lacking?_shift]
  exact ⟨rfl, rfl⟩

theorem Placed.grown {alt t t' u w v : Text} {x y z y' : List Cell} {pre : List Step}
    {before behind : List OuterLink} {l l' : OuterLink} {d e : Depths}
    (h : Placed t x y z pre l before d e) (h' : Placed t' x y' z pre l' before d e)
    (houter : (ofText t).outerLinks = before ++ l :: behind)
    (hput : Put alt (Cell.chars y) (Cell.chars y') u w v) (halt : alt.Bare) :
    Grown alt t t' before l l' behind (Cell.chars x) u w v (Cell.chars z) where
  text_eq := by
    rw [h.chars_eq, hput.text_eq]
    simp only [List.append_assoc]
  text_eq' := by
    rw [h'.chars_eq, hput.text_eq']
    simp only [List.append_assoc]
  links := houter
  links' := (h.outerLinks_revised h' houter hput.byteLength_eq).1
  start := h.start_eq
  text := by rw [h.text_eq, hput.text_eq]
  text' := by rw [h'.text_eq, hput.text_eq']
  alt_infix := hput.alt_infix
  bare := hput.bare halt
  left := hput.left
  right := hput.right

theorem Placed.text_ne_of_first {t q : Text} {x y z : List Cell} {pre : List Step}
    {before behind : List OuterLink} {l k : OuterLink} {d e : Depths}
    (h : Placed t x y z pre l before d e)
    (houter : (ofText t).outerLinks = before ++ l :: behind)
    (hfirst : t.breakOn? (Cell.chars y) = some (Cell.chars x, q)) (hk : k ∈ before) :
    k.text ≠ Cell.chars y := by
  intro heq
  have hmem : k ∈ (ofText t).outerLinks := by
    rw [houter]
    exact List.mem_append_left _ hk
  have hlt := start_lt_of_outerLinks houter hk
  obtain ⟨x₁, y₁, z₁, _, _, _, _, hp₁⟩ := exists_placed_of_mem hmem
  have hcopy : t = Cell.chars x₁ ++ (Cell.chars y ++ Cell.chars z₁) := by
    rw [← heq, hp₁.text_eq]
    exact hp₁.chars_eq
  have hle := Text.byteLength_le_of_breakOn? hfirst hcopy
  rw [hp₁.start_eq, h.start_eq] at hlt
  omega

end Document

def MissingAlt.key (m : MissingAlt) : Text × Text :=
  (m.text, m.file)

namespace NameTable

variable {a : NameTable}

theorem missingAlt_eq (ha : ∀ n ∈ a.namespaces, Clean n) (t : Text) :
    ∃ ms, a.missingAlt (ofText t) = .ok ms ∧ ms.map MissingAlt.key = (ofText t).lacking a := by
  refine ⟨_, by rw [NameTable.missingAlt, Document.missingAlt, mediaLinks_eq ha]; rfl, ?_⟩
  rw [List.filter_filterMap, List.map_map, List.map_filterMap, Document.lacking]
  apply List.filterMap_congr
  intro l hl
  obtain ⟨_, _, _, _, _, _, _, hp⟩ := exists_placed_of_mem hl
  have hslice : t.slice l.bytes.start l.bytes.stop = l.text := by rw [hp.slice_eq, hp.text_eq]
  rw [OuterLink.media?, OuterLink.lacking?]
  cases l.alias? a.namespaces with
  | none => simp
  | some n =>
    by_cases hany : l.params.any (isAltParam a.altParams) = true
    · simp [Option.filter, hany]
    · simp [Option.filter, hany, MissingAlt.key, MediaLink.file, hslice]

theorem captionIn?_eq {t : Text} {x y z : List Cell} {pre : List Step} {l : OuterLink}
    {before : List OuterLink} {d e : Depths} (ha : ∀ n ∈ a.namespaces, Clean n)
    (h : Placed t x y z pre l before d e) (hkeeps : l.Keeps) {n : Text}
    (hn : l.alias? a.namespaces = some n) :
    a.captionIn? (Cell.chars y) = .ok (MediaLink.captionOf? a.magicWords l.params) := by
  have halias := (l.alias?_alone a.namespaces).trans hn
  have hparams : l.alone.params = l.params := (List.cons.inj hkeeps.title_alone).2
  rw [captionIn?, NameTable.mediaLinks, mediaLinks_eq ha, h.outerLinks_alone hkeeps]
  simp only [List.filterMap_cons, List.filterMap_nil, OuterLink.media?, halias, Option.map_some,
    hparams]
  rfl

/-- Links of the text `m`, with the caption `c`, can be found by their text and take the alternative
text. What stands ahead of one of them as its text is such a link; the templates around them stay
open inside them, and those opened inside are closed there if the new parameter goes behind all
others. -/
structure Findable (a : NameTable) (alt article m c : Text) : Prop where
  apart : ¬ alt <:+: m
  solely : Solely article m
  nested : ∀ l ∈ (ofText article).outerLinks, l.text = m →
    l.Keeps ∧ (l.Level ∨ AltPlace.ofCaption? c l.params ≠ some .last)

theorem Findable.of_grown {alt t t' m c : Text} {before behind : List OuterLink}
    {l l' : OuterLink} {x u w v z : Text} (hf : a.Findable alt t m c)
    (h : Grown alt t t' before l l' behind x u w v z) : a.Findable alt t' m c where
  apart := hf.apart
  solely := h.solely hf.apart hf.solely
  nested k hk hm := by
    rcases h.mem_links' hf.apart hk hm with hk | ⟨k₀, hk₀, rfl⟩
    · refine hf.nested k ?_ hm
      rw [h.links]
      exact List.mem_append_left _ hk
    · refine hf.nested k₀ ?_ hm
      rw [h.links]
      exact List.mem_append_right _ (List.mem_cons_of_mem _ hk₀)

/-- The turn of a captioned link edits the first link of its text. -/
theorem exists_fillOne {alt article m c file : Text} (ha : ∀ n ∈ a.namespaces, Clean n)
    (halt : alt.Bare) (hend : alt.Parted [']']) (hparam : isAltParam a.altParams alt = true)
    (hf : a.Findable alt article m c) (hm : (m, file) ∈ (ofText article).lacking a)
    (hc : a.captionIn? m = .ok (some c)) :
    ∃ article' before l l' behind x u w v z, a.fillOne alt article m = .ok article' ∧
      Grown alt article article' before l l' behind x u w v z ∧
      l.lacking? a = some (m, file) ∧ l'.lacking? a = none ∧ ∀ k ∈ before, k.text ≠ m := by
  obtain ⟨o, ho, hlack⟩ := List.mem_filterMap.mp hm
  have htext : o.text = m := (text_of_lacking? hlack).symm
  obtain ⟨p, q, l, hbreak, hl, hstart, hlm⟩ := hf.solely.exists_first ho htext
  obtain ⟨hkeeps, hlevel⟩ := hf.nested l hl hlm
  have hlk : l.lacking? a = some (m, file) := by
    rw [lacking?_eq_of_text ho hl (hf.nested o ho htext).1 hkeeps (hlm.trans htext.symm), hlack]
  obtain ⟨before, behind, houter⟩ := List.append_of_mem hl
  obtain ⟨x, y, z, pre, d, e, hp, -⟩ := exists_placed houter
  obtain ⟨n, hn⟩ := exists_alias_of_lacking? hlk
  -- The occurrence is the link.
  obtain rfl : Cell.chars y = m := hp.text_eq.symm.trans hlm
  have happ := Text.breakOn?_eq_append hbreak
  rw [hp.chars_eq, List.append_assoc] at happ
  obtain ⟨rfl, hrest⟩ := Text.append_inj_of_byteLength happ (hp.start_eq.symm.trans hstart)
  obtain rfl := List.append_cancel_left hrest
  have hcap := a.captionIn?_eq ha hp hkeeps hn
  rw [hc, Except.ok.injEq] at hcap
  obtain ⟨r, hr, hcaptions⟩ := MediaLink.exists_of_captionOf? hcap.symm
  rcases hp.insertAlt_eq hkeeps hbreak halt hend c with
    ⟨hno, -⟩ | ⟨y', l', u, w, v, hedit, hput, hp', -, hne, hgain, -⟩
  · exact absurd hcaptions (hno r hr)
  · refine ⟨_, before, l, l', behind, Cell.chars x, u, w, v, Cell.chars z, ?_,
      hp.grown hp' houter hput halt, hlk, ?_, fun k hk => hp.text_ne_of_first houter hbreak hk⟩
    · rw [fillOne, hc]
      exact congrArg Except.ok hedit
    · rw [OuterLink.lacking?, if_pos (hgain.any_isAltParam hne hlevel hparam)]

theorem split_at_first {xs xs' ys ys' : List (Text × Text)} {p p' : Text × Text} {m : Text}
    (h : xs ++ p :: ys = xs' ++ p' :: ys') (hp : p.1 = m) (hp' : p'.1 = m)
    (hxs : ∀ e ∈ xs, e.1 ≠ m) (hxs' : ∀ e ∈ xs', e.1 ≠ m) : xs = xs' ∧ ys = ys' := by
  rcases List.append_eq_append_iff.mp h with ⟨r, rfl, hr⟩ | ⟨r, rfl, hr⟩
  · cases r with
    | nil => exact ⟨by simp, (List.cons.inj hr).2⟩
    | cons q r =>
      obtain ⟨rfl, -⟩ := List.cons.inj hr
      exact absurd hp (hxs' p (by simp))
  · cases r with
    | nil => exact ⟨by simp, (List.cons.inj hr).2.symm⟩
    | cons q r =>
      obtain ⟨rfl, -⟩ := List.cons.inj hr
      exact absurd hp' (hxs p' (by simp))

def isCaptionless (a : NameTable) (m : MissingAlt) : Bool :=
  a.captionIn? m.text = .ok none

theorem exists_captionIn? (ha : ∀ n ∈ a.namespaces, Clean n) (m : Text) :
    ∃ c, a.captionIn? m = .ok c := by
  rw [captionIn?, NameTable.mediaLinks, mediaLinks_eq ha]
  exact ⟨_, rfl⟩

/-- A turn takes its link off the list, and what can be found stays so. -/
theorem exists_turn {alt article : Text} (ha : ∀ n ∈ a.namespaces, Clean n) (halt : alt.Bare)
    (hend : alt.Parted [']']) (hparam : isAltParam a.altParams alt = true) {m : MissingAlt}
    {ms : List MissingAlt} {done : List (Text × Text)} {c : Text}
    (hf : a.Findable alt article m.text c) (hc : a.captionIn? m.text = .ok (some c))
    (hlist : (ofText article).lacking a = done ++ (m :: ms).map MissingAlt.key)
    (hdone : ∀ e ∈ done, a.captionIn? e.1 = .ok none) :
    ∃ article', a.fillOne alt article m.text = .ok article' ∧
      (ofText article').lacking a = done ++ ms.map MissingAlt.key ∧
      ∀ {m' c' : Text}, a.Findable alt article m' c' → a.Findable alt article' m' c' := by
  have hm : (m.text, m.file) ∈ (ofText article).lacking a := by
    rw [hlist]
    exact List.mem_append_right _ List.mem_cons_self
  obtain ⟨article', before, l, l', behind, x, u, w, v, z, hfill, hgrown, hl, hl', hne⟩ :=
    exists_fillOne ha halt hend hparam hf hm hc
  obtain ⟨hbefore, hafter⟩ := hgrown.lacking_eq hl hl'
  have hahead : ∀ e ∈ before.filterMap (lacking? a), e.1 ≠ m.text := by
    intro e he
    obtain ⟨k, hk, hke⟩ := List.mem_filterMap.mp he
    rw [text_of_lacking? hke]
    exact hne k hk
  -- No link listed before this one has its text, as they have no caption.
  have hother : ∀ e ∈ done, e.1 ≠ m.text := by
    intro e he heq
    rw [← heq, hdone e he] at hc
    cases hc
  obtain ⟨hsame, hsame'⟩ := split_at_first (hbefore.symm.trans hlist) rfl rfl hahead hother
  rw [hsame, hsame'] at hafter
  exact ⟨article', hfill, hafter, fun hf => hf.of_grown hgrown⟩

/-- After all turns the list holds what it held of links without a caption. -/
theorem exists_foldlM_fillOne {alt : Text} (ha : ∀ n ∈ a.namespaces, Clean n) (halt : alt.Bare)
    (hend : alt.Parted [']']) (hparam : isAltParam a.altParams alt = true) :
    ∀ {ms : List MissingAlt} {article : Text} {done : List (Text × Text)},
      (∀ m ∈ ms, ∀ c, a.captionIn? m.text = .ok (some c) → a.Findable alt article m.text c) →
      (ofText article).lacking a = done ++ ms.map MissingAlt.key →
      (∀ e ∈ done, a.captionIn? e.1 = .ok none) →
      ∃ filled, ms.foldlM (fun t m => a.fillOne alt t m.text) article = .ok filled ∧
        (ofText filled).lacking a = done ++ (ms.filter a.isCaptionless).map MissingAlt.key := by
  intro ms
  induction ms with
  | nil => exact fun {article done} _ hlist _ => ⟨article, rfl, hlist⟩
  | cons m ms ih =>
    intro article done hfind hlist hdone
    have hrest : ∀ k ∈ ms, ∀ c, a.captionIn? k.text = .ok (some c) →
        a.Findable alt article k.text c := fun k hk => hfind k (List.mem_cons_of_mem _ hk)
    obtain ⟨c, hc⟩ := exists_captionIn? ha m.text
    cases c with
    | none =>
      have hfill : a.fillOne alt article m.text = .ok article := by
        rw [fillOne, hc]
        rfl
      have hlist' : (ofText article).lacking a =
          (done ++ [m.key]) ++ ms.map MissingAlt.key := by
        rw [hlist]
        simp
      have hdone' : ∀ e ∈ done ++ [m.key], a.captionIn? e.1 = .ok none := by
        intro e he
        rcases List.mem_append.mp he with he | he
        · exact hdone e he
        · obtain rfl : e = m.key := by simpa using he
          exact hc
      obtain ⟨filled, hrun, hfilled⟩ := ih hrest hlist' hdone'
      refine ⟨filled, ?_, ?_⟩
      · rw [List.foldlM_cons, hfill]
        exact hrun
      · rw [hfilled, List.filter_cons_of_pos (by simp [isCaptionless, hc])]
        simp
    | some c =>
      obtain ⟨article', hfill, hlist', hkeep⟩ :=
        exists_turn ha halt hend hparam (hfind m List.mem_cons_self c hc) hc hlist hdone
      have hrest' : ∀ k ∈ ms, ∀ c, a.captionIn? k.text = .ok (some c) →
          a.Findable alt article' k.text c := fun k hk c hc => hkeep (hrest k hk c hc)
      obtain ⟨filled, hrun, hfilled⟩ := ih hrest' hlist' hdone
      refine ⟨filled, ?_, ?_⟩
      · rw [List.foldlM_cons, hfill]
        exact hrun
      · rw [hfilled, List.filter_cons_of_neg (by simp [isCaptionless, hc])]

/-- Filling an article leaves on the list of links without alternative text those that have no
caption, in their order, if the others can be found by their texts. -/
theorem missingAlt_fillAlt {alt article : Text} (ha : ∀ n ∈ a.namespaces, Clean n)
    (halt : alt.Bare) (hend : (ofText (alt ++ [']'])).isBoundary alt.byteLength = true)
    (hparam : isAltParam a.altParams alt = true)
    (hfind : ∀ ms, a.missingAlt (ofText article) = .ok ms → ∀ m ∈ ms, ∀ c,
      a.captionIn? m.text = .ok (some c) → a.Findable alt article m.text c) :
    ∃ ms filled ms', a.missingAlt (ofText article) = .ok ms ∧ a.fillAlt alt article = .ok filled ∧
      a.missingAlt (ofText filled) = .ok ms' ∧
      ms'.map MissingAlt.key = (ms.filter a.isCaptionless).map MissingAlt.key := by
  have hparted : alt.Parted [']'] := (isBoundary_append alt [']']).mp hend
  obtain ⟨ms, hms, hlist⟩ := missingAlt_eq ha article
  have hstart : (ofText article).lacking a = [] ++ ms.map MissingAlt.key := hlist.symm
  obtain ⟨filled, hrun, hfilled⟩ :=
    exists_foldlM_fillOne ha halt hparted hparam (hfind ms hms) hstart (by simp)
  obtain ⟨ms', hms', hlist'⟩ := missingAlt_eq ha filled
  refine ⟨ms, filled, ms', hms, ?_, hms', hlist'.trans hfilled⟩
  rw [fillAlt, hms]
  exact hrun

/-- Two equal links with a caption, one of them in a template, a link without, and a copy of the
first two in a comment behind them. -/
def equalImages : Text :=
  "[[F:a|b]] \x7b\x7bx|[[F:a|b]]\x7d\x7d [[F:c]] <!--[[F:a|b]]-->".toList

def fileTable : NameTable := ⟨["F".toList], ["alt".toList], []⟩

theorem missingAlt_fillAlt_equalImages : ∃ filled ms',
    fileTable.fillAlt "alt=x".toList equalImages = .ok filled ∧
    fileTable.missingAlt (ofText filled) = .ok ms' ∧
    ms'.map MissingAlt.key = [("[[F:c]]".toList, "F:c".toList)] := by
  have hms : fileTable.missingAlt (ofText equalImages) = .ok
      [⟨"[[F:a|b]]".toList, "F:a".toList, ⟨0, 9⟩⟩, ⟨"[[F:a|b]]".toList, "F:a".toList, ⟨14, 9⟩⟩,
        ⟨"[[F:c]]".toList, "F:c".toList, ⟨26, 7⟩⟩] := by
    decide +kernel
  have hequal (c : Text) : fileTable.Findable "alt=x".toList equalImages "[[F:a|b]]".toList c := by
    have hlevel : ∀ l ∈ (ofText equalImages).outerLinks, l.Keeps ∧ l.Level := by decide +kernel
    exact ⟨by decide +kernel, by decide +kernel,
      fun l hl _ => ⟨(hlevel l hl).1, .inl (hlevel l hl).2⟩⟩
  have hlast : fileTable.captionIn? "[[F:c]]".toList = .ok none := by decide +kernel
  have ha : ∀ n ∈ fileTable.namespaces, Clean n := by decide
  have halt : Text.Bare "alt=x".toList := by decide
  have hfind : ∀ ms, fileTable.missingAlt (ofText equalImages) = .ok ms → ∀ m ∈ ms, ∀ c,
      fileTable.captionIn? m.text = .ok (some c) →
      fileTable.Findable "alt=x".toList equalImages m.text c := by
    intro ms h m hm c hc
    obtain rfl := Except.ok.inj (hms.symm.trans h)
    simp only [List.mem_cons, List.not_mem_nil, or_false] at hm
    rcases hm with rfl | rfl | rfl
    · exact hequal c
    · exact hequal c
    · cases hlast.symm.trans hc
  obtain ⟨ms, filled, ms', hms₀, hfill, hms', hkeys⟩ :=
    missingAlt_fillAlt ha halt (by decide +kernel) (by decide +kernel) hfind
  obtain rfl := Except.ok.inj (hms.symm.trans hms₀)
  exact ⟨filled, ms', hfill, hms', hkeys.trans (by decide +kernel)⟩

/-- A captioned link stays on the list when its text stands in a comment ahead of it, when a
template around it is closed inside it, when its caption leaves a template open, and when the edit
of another link makes its text out of a comment. -/
theorem fillAlt_leaves_captioned :
    (∀ n ∈ fileTable.namespaces, Clean n) ∧ Text.Bare "alt=x".toList ∧
    isAltParam fileTable.altParams "alt=x".toList = true ∧
    Text.Parted "alt=x".toList [']'] ∧
    ∀ article ∈ ["<!--[[F:a|b]]-->[[F:a|b]]", "\x7b\x7bx [[F:a|b\x7d\x7d|cap]]",
      "[[F:a|cap \x7b\x7bc]]",
      "<!--[[F:z-->[[F:a|b]]|c]] [[F:z-->[[F:a| alt=x | b]]|c]]"].map String.toList,
    (fileTable.missingAlt (ofText article)).map (·.filter fileTable.isCaptionless) = .ok [] ∧
    ((fileTable.fillAlt "alt=x".toList article).bind fun filled =>
      fileTable.missingAlt (ofText filled)).map List.length = .ok 1 := by
  refine ⟨by decide +kernel, by decide +kernel, by decide +kernel, ?_, by decide +kernel⟩
  exact Text.parted_other_other (s := "alt=".toList) (c := 'x') rfl rfl

end NameTable

end Wikitext
