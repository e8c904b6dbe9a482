import Mathlib.Data.List.Find
import Wikitext.Link.AltText
import Wikitext.Proofs.Offsets
import Wikitext.Proofs.OuterLinks

/-! Which alias a link uses is seen from its own cells, as an alias that holds neither a separator
nor a closer cannot run on past the title. So the media links of a document follow from its
outermost links one by one, and none of them is lost to an alias. -/

namespace Wikitext

open Step

/-- An alias that holds no separator and does not end a link. -/
def Clean (a : Text) : Prop :=
  '|' ∉ a ∧ ¬ LexemeKind.linkClose.literal <:+: a

instance (a : Text) : Decidable (Clean a) :=
  inferInstanceAs (Decidable ('|' ∉ a ∧ ¬ LexemeKind.linkClose.literal <:+: a))

theorem Clean.not_prefix_of_closer {a w : Text} (ha : Clean a) :
    ¬ w ++ LexemeKind.linkClose.literal <+: a ++ [':'] := by
  rintro ⟨r, hr⟩
  rcases List.eq_nil_or_concat r with rfl | ⟨r, c, rfl⟩
  · have hlast := congrArg List.getLast? hr
    simp [LexemeKind.literal] at hlast
  · refine ha.2 ⟨w, r, ?_⟩
    rw [List.concat_eq_append, ← List.append_assoc] at hr
    exact (List.append_inj' hr rfl).1

theorem Clean.not_prefix_of_separator {a w : Text} (ha : Clean a) :
    ¬ w ++ ['|'] <+: a ++ [':'] := by
  intro h
  have hmem : '|' ∈ a ++ [':'] := h.subset (by simp)
  rcases List.mem_append.mp hmem with h | h
  · exact ha.1 h
  · simp at h

theorem Clean.length_lt_of_separator {a t r : Text} (ha : Clean a)
    (h : a ++ [':'] <+: t ++ ['|'] ++ r) : a.length < t.length := by
  rcases List.prefix_or_prefix_of_prefix h (List.prefix_append _ _) with hp | hp
  · have hle := hp.length_le
    have hne : (a ++ [':']).length ≠ (t ++ ['|']).length := fun he =>
      ha.not_prefix_of_separator (by rw [hp.eq_of_length he])
    simp only [List.length_append, List.length_singleton] at hle hne
    omega
  · exact absurd hp ha.not_prefix_of_separator

theorem Clean.length_lt_of_closer {a t : Text} (ha : Clean a)
    (h : a ++ [':'] <+: t ++ LexemeKind.linkClose.literal) : a.length < t.length := by
  have hle := h.length_le
  have htwo : (a ++ [':']).length ≠ (t ++ LexemeKind.linkClose.literal).length := fun he =>
    ha.not_prefix_of_closer (by rw [h.eq_of_length he])
  have hone : (a ++ [':']).length ≠ (t ++ [']']).length := fun he => by
    have hp : t ++ [']'] <+: t ++ LexemeKind.linkClose.literal :=
      ⟨[']'], by simp [LexemeKind.literal]⟩
    have heq := (List.prefix_of_prefix_length_le h hp he.le).eq_of_length he
    have hlast := congrArg List.getLast? heq
    simp at hlast
  simp only [List.length_append, LexemeKind.literal, List.length_cons, List.length_nil]
    at hle htwo hone
  omega

namespace MediaLink

theorem aliasAt?_append {aliases : List Text} {w : List Cell}
    (h : ∀ a ∈ aliases, ¬ Cell.chars w <+: a ++ [':']) (r : List Cell) :
    aliasAt? aliases (w ++ r) = aliasAt? aliases w := by
  apply List.find?_congr
  intro a ha
  by_cases hp : a ++ [':'] <+: Cell.chars w
  · have hlt : a.length + 1 < w.length := by
      rw [← Cell.length_chars w]
      refine Nat.lt_of_le_of_ne (by simpa using hp.length_le) fun he => h a ha ?_
      rw [hp.eq_of_length (by simpa using he)]
    have hb : Cell.beginsWith (w ++ r) (a ++ [':']) = true := by
      rw [Cell.beginsWith_iff, Cell.chars_append]
      exact hp.trans (List.prefix_append _ _)
    rw [hb, Cell.beginsWith_iff.mpr hp, List.drop_append_of_le_length hlt.le,
      Cell.atBoundary_append (by
        rw [ne_eq, List.drop_eq_nil_iff]
        omega)]
  · have hb : Cell.beginsWith (w ++ r) (a ++ [':']) = false := by
      rw [Bool.eq_false_iff, ne_eq, Cell.beginsWith_iff, Cell.chars_append]
      intro hpr
      rcases List.prefix_or_prefix_of_prefix hpr (List.prefix_append _ _) with h' | h'
      · exact hp h'
      · exact h a ha h'
    have hb' : Cell.beginsWith w (a ++ [':']) = false := by
      rwa [Bool.eq_false_iff, ne_eq, Cell.beginsWith_iff]
    simp only [hb, hb', Bool.and_false, Bool.false_and]

/-- Where some cells of a text begin with an alias, its characters do, and a boundary of the
document follows the colon. -/
theorem aliasAt?_eq {t : Text} {x y : List Cell} (h : Cell.ofText t = x ++ y)
    (aliases : List Text) : aliasAt? aliases y = aliases.find? fun a =>
      a ≠ [] && (a ++ [':']).isPrefixOf (Cell.chars y) &&
        (Document.ofText t).isBoundary
          ((Cell.chars x).byteLength + Text.byteLength (a ++ [':'])) := by
  apply List.find?_congr
  intro a _
  by_cases hp : a ++ [':'] <+: Cell.chars y
  · obtain ⟨r, hr⟩ := hp
    obtain ⟨u, v, rfl, hu, -⟩ := Cell.exists_append_of_chars_eq hr.symm
    have hlen : a.length + 1 = u.length := by rw [← Cell.length_chars, hu]; simp
    have hcut : Cell.ofText t = (x ++ u) ++ v := by rw [h, List.append_assoc]
    have hbytes : (Cell.chars x).byteLength + Text.byteLength (a ++ [':']) =
        (Cell.chars (x ++ u)).byteLength := by
      rw [Cell.chars_append, hu, Text.byteLength_append (Cell.chars x)]
    have hpre : a ++ [':'] <+: Cell.chars (u ++ v) := ⟨r, hr⟩
    rw [Cell.beginsWith_iff.mpr hpre, List.isPrefixOf_iff_prefix.mpr hpre, hlen, List.drop_left,
      hbytes, Document.isBoundary_cut hcut]
  · have hno : Cell.beginsWith y (a ++ [':']) = false := by
      rwa [Bool.eq_false_iff, ne_eq, Cell.beginsWith_iff]
    have hno' : (a ++ [':']).isPrefixOf (Cell.chars y) = false := by
      rwa [Bool.eq_false_iff, ne_eq, List.isPrefixOf_iff_prefix]
    rw [hno, hno', Bool.and_false, Bool.false_and, Bool.false_and]

theorem prefix_of_aliasAt? {aliases : List Text} {w : List Cell} {a : Text}
    (h : aliasAt? aliases w = some a) : a ∈ aliases ∧ a ++ [':'] <+: Cell.chars w := by
  have hp := List.find?_some h
  simp only [Bool.and_eq_true] at hp
  exact ⟨List.mem_of_find?_eq_some h, Cell.beginsWith_iff.mp hp.1.2⟩

end MediaLink

namespace OuterLink

/-- The alias with which a link begins, seen from the link alone. -/
def alias? (aliases : List Text) (l : OuterLink) : Option Text :=
  MediaLink.aliasAt? aliases (l.inside.flatMap (·.cells) ++ l.closing.cells)

def media? (d : Document) (aliases : List Text) (l : OuterLink) : Option MediaLink :=
  (l.alias? aliases).map fun a =>
    ⟨a, l.title.drop (a.length + 1), l.params, l.bytes, d.spanOf l.bytes⟩

/-- What makes the steps of a link a link: its markers are written as markers. -/
structure Written (l : OuterLink) : Prop where
  opening : l.opening.text = LexemeKind.linkOpen.literal
  closing : l.closing.text = LexemeKind.linkClose.literal
  separators : ∀ s ∈ l.inside, s.kind = .pipe → s.text = ['|']

theorem text_eq_append (l : OuterLink) :
    l.text = l.opening.text ++ (textOf l.inside ++ l.closing.text) := by
  simp [text, steps, textOf]

theorem Written.title_prefix {l : OuterLink} (h : l.Written) :
    (∃ w r, l.inside.flatMap (·.cells) = w ++ r ∧ Cell.chars w = l.title ++ ['|']) ∨
      Cell.chars (l.inside.flatMap (·.cells)) = l.title := by
  rw [chars_flatMap_cells]
  have hs := textOf_inside h.separators
  cases hp : (splitAt (separates l.opening.depths.template) l.inside).2 with
  | nil =>
    rw [hp] at hs
    exact .inr (by simpa [title, textOf] using hs)
  | cons part more =>
    rw [hp, ← chars_flatMap_cells, List.flatMap_cons, List.append_assoc, ← List.append_assoc] at hs
    obtain ⟨w, r, hw, hchars, -⟩ := Cell.exists_append_of_chars_eq hs
    exact .inl ⟨w, r, hw, hchars⟩

theorem Written.length_lt {l : OuterLink} (h : l.Written) {aliases : List Text} {a : Text}
    (ha : ∀ a ∈ aliases, Clean a) (hl : l.alias? aliases = some a) : a.length < l.title.length := by
  obtain ⟨hmem, hp⟩ := MediaLink.prefix_of_aliasAt? hl
  rw [Cell.chars_append] at hp
  rcases h.title_prefix with ⟨w, r, hw, hchars⟩ | hchars
  · rw [hw, Cell.chars_append, hchars, List.append_assoc] at hp
    exact (ha a hmem).length_lt_of_separator hp
  · rw [hchars, show Cell.chars l.closing.cells = _ from h.closing] at hp
    exact (ha a hmem).length_lt_of_closer hp

theorem Written.alias_prefix {l : OuterLink} (h : l.Written) {aliases : List Text} {a : Text}
    (ha : ∀ a ∈ aliases, Clean a) (hl : l.alias? aliases = some a) : a ++ [':'] <+: l.title := by
  have hp := (MediaLink.prefix_of_aliasAt? hl).2
  have ht : l.title <+: Cell.chars (l.inside.flatMap (·.cells) ++ l.closing.cells) := by
    rw [Cell.chars_append]
    rcases h.title_prefix with ⟨w, r, hw, hchars⟩ | hchars
    · rw [hw, Cell.chars_append, hchars]
      simp
    · rw [hchars]
      exact List.prefix_append _ _
  apply List.prefix_of_prefix_length_le hp ht
  rw [List.length_append]
  exact h.length_lt ha hl

theorem Written.aliasAt?_append {l : OuterLink} (h : l.Written) {aliases : List Text}
    (ha : ∀ a ∈ aliases, Clean a) (r : List Cell) :
    MediaLink.aliasAt? aliases (l.inside.flatMap (·.cells) ++ l.closing.cells ++ r) =
      l.alias? aliases := by
  refine MediaLink.aliasAt?_append (fun a hmem => ?_) r
  rw [Cell.chars_append, show Cell.chars l.closing.cells = _ from h.closing]
  exact (ha a hmem).not_prefix_of_closer

end OuterLink

namespace MediaLink

/-- The link `n` bytes further on, in the document given. -/
def moved (d : Document) (n : Nat) (l : MediaLink) : MediaLink :=
  ⟨l.aliasUsed, l.title, l.params, ⟨l.bytes.start + n, l.bytes.stop + n⟩,
    d.spanOf ⟨l.bytes.start + n, l.bytes.stop + n⟩⟩

end MediaLink

namespace OuterLink

theorem bytes_of_media? {d : Document} {aliases : List Text} {l : OuterLink} {m : MediaLink}
    (h : l.media? d aliases = some m) : m.bytes = l.bytes := by
  obtain ⟨a, -, rfl⟩ := Option.map_eq_some_iff.mp h
  rfl

theorem media?_congr {s t t' : Text} (h : s.Parted t) (h' : s.Parted t') {l : OuterLink}
    (hl : l.bytes.stop ≤ s.byteLength) (aliases : List Text) :
    l.media? (.ofText (s ++ t')) aliases = l.media? (.ofText (s ++ t)) aliases := by
  rw [media?, media?, Document.spanOf_congr h' h (Nat.le_add_right _ _) hl]

theorem media?_shift (d d' : Document) (n : Nat) (aliases : List Text) (l : OuterLink) :
    (shift n l).media? d' aliases = (l.media? d aliases).map (MediaLink.moved d' n) := by
  have hbytes : (shift n l).bytes = ⟨l.bytes.start + n, l.bytes.stop + n⟩ := by
    simp only [bytes, shift, text, steps, ByteRange.mk.injEq, true_and]
    omega
  rw [media?, media?, hbytes, Option.map_map]
  rfl

theorem filterMap_media?_shift (d d' : Document) (n : Nat) (aliases : List Text)
    (ls : List OuterLink) : (ls.map (shift n)).filterMap (media? d' aliases) =
      (ls.filterMap (media? d aliases)).map (MediaLink.moved d' n) := by
  rw [List.filterMap_map, List.map_filterMap]
  exact List.filterMap_congr fun l _ => media?_shift d d' n aliases l

end OuterLink

namespace Document

/-- `Placed t x y z pre l before`: in the text `t` the link `l` has the cells `y`, behind the cells
`x` and before the cells `z`. The steps before it are `pre`, and they hold the links `before`. -/
structure Placed (t : Text) (x y z : List Cell) (pre : List Step) (l : OuterLink)
    (before : List OuterLink) (d e : Depths) : Prop where
  cells : Cell.ofText t = x ++ (y ++ z)
  ahead : Scans .zero x (y ++ z) pre d
  link : Scans d y z l.steps e
  stands : OuterLink.Stands 0 pre l before

theorem exists_placed {t : Text} {before behind : List OuterLink} {l : OuterLink}
    (h : (ofText t).outerLinks = before ++ l :: behind) :
    ∃ x y z pre d e, Placed t x y z pre l before d e ∧
      OuterLink.ofSteps l.bytes.stop (scanFrom e z) = behind := by
  obtain ⟨pre, post, hss, hst, hb⟩ := OuterLink.exists_stands h
  have hclose : l.closing.kind = .linkClose := (OuterLink.closes_iff.mp hst.closing).1
  have hlast : (pre ++ l.steps).getLast? = some l.closing := by
    rw [OuterLink.steps, ← List.append_assoc, List.getLast?_concat]
  have hscan : scanFrom .zero (Cell.ofText t) = (pre ++ l.steps) ++ post := by
    rw [List.append_assoc]
    exact hss
  obtain ⟨w, z, e, hw, hs, hz⟩ := exists_scans hscan fun _ s hs => by
    obtain rfl : l.closing = s := by simpa [hlast] using hs
    simp [hclose]
  obtain ⟨x, y, d, rfl, hx, hy⟩ := hs.split
  refine ⟨x, y, z, pre, d, e, ⟨by rw [hw, List.append_assoc], hx, hy, hst⟩, ?_⟩
  rw [hz, hb]

theorem exists_placed_of_mem {t : Text} {l : OuterLink} (hl : l ∈ (ofText t).outerLinks) :
    ∃ x y z pre before d e, Placed t x y z pre l before d e := by
  obtain ⟨before, behind, he⟩ := List.append_of_mem hl
  obtain ⟨x, y, z, pre, d, e, hp, -⟩ := exists_placed he
  exact ⟨x, y, z, pre, before, d, e, hp⟩

namespace Placed

variable {t : Text} {x y z : List Cell} {pre : List Step} {l : OuterLink}
  {before : List OuterLink} {d e : Depths}

theorem start_eq (h : Placed t x y z pre l before d e) :
    l.start = (Cell.chars x).byteLength := by
  rw [h.stands.start, h.ahead.textOf_eq, Nat.zero_add]

theorem text_eq (h : Placed t x y z pre l before d e) : l.text = Cell.chars y :=
  h.link.textOf_eq

theorem atBoundary_behind (h : Placed t x y z pre l before d e) : Cell.atBoundary z = true :=
  h.link.boundary_after (p := l.opening :: l.inside)
    (by simp [(OuterLink.closes_iff.mp h.stands.closing).1])

theorem written (h : Placed t x y z pre l before d e) : l.Written := by
  have ho := OuterLink.opens_iff.mp h.stands.opening
  have hc := OuterLink.closes_iff.mp h.stands.closing
  refine ⟨?_, ?_, fun s hs hk => ?_⟩
  · have hs := h.link.text_eq (s := l.opening) (by simp [OuterLink.steps]) (by simp [ho.1])
      (by simp [ho.1])
    rw [hs.1, ho.1]
    rfl
  · have hs := h.link.text_eq (s := l.closing) (by simp [OuterLink.steps]) (by simp [hc.1])
      (by simp [hc.1])
    rw [hs.1, hc.1]
    rfl
  · have hs' := h.link.text_eq (s := s) (by simp [OuterLink.steps, hs]) (by simp [hk])
      (by simp [hk])
    rw [hs'.1, hk]
    rfl

theorem cells_eq (h : Placed t x y z pre l before d e) :
    y = l.opening.cells ++ (l.inside.flatMap (·.cells) ++ l.closing.cells) := by
  rw [← h.link.flatMap_cells]
  simp [OuterLink.steps]

theorem atBoundary (h : Placed t x y z pre l before d e) : Cell.atBoundary (y ++ z) = true := by
  have ho := OuterLink.opens_iff.mp h.stands.opening
  have hb := (h.link.text_eq (s := l.opening) (by simp [OuterLink.steps]) (by simp [ho.1])
    (by simp [ho.1])).2
  have hne : l.opening.cells ≠ [] := by
    intro hnil
    have htext := h.written.opening
    rw [Step.text, hnil] at htext
    cases htext
  rwa [h.cells_eq, List.append_assoc, Cell.atBoundary_append hne]

theorem cells_opening (h : Placed t x y z pre l before d e) : Cell.ofText t =
    (x ++ l.opening.cells) ++ (l.inside.flatMap (·.cells) ++ l.closing.cells ++ z) := by
  rw [h.cells, h.cells_eq]
  simp only [List.append_assoc]

theorem byteLength_opening (h : Placed t x y z pre l before d e) :
    (Cell.chars (x ++ l.opening.cells)).byteLength = l.start + 2 := by
  rw [Cell.chars_append, Text.byteLength_append, ← h.start_eq,
    show Cell.chars l.opening.cells = _ from h.written.opening]
  rfl

theorem exists_text_eq (h : Placed t x y z pre l before d e) :
    ∃ w, l.text = '[' :: w ++ [']'] := by
  refine ⟨'[' :: (textOf l.inside ++ [']']), ?_⟩
  rw [OuterLink.text_eq_append, h.written.opening, h.written.closing]
  simp [LexemeKind.literal]

theorem byteLength_pos (h : Placed t x y z pre l before d e) : 0 < l.text.byteLength := by
  rw [OuterLink.text_eq_append, Text.byteLength_append, h.written.opening]
  exact Nat.lt_of_lt_of_le (by decide) (Nat.le_add_right _ _)

theorem ofOuter?_eq (h : Placed t x y z pre l before d e) {aliases : List Text}
    (ha : ∀ a ∈ aliases, Clean a) :
    MediaLink.ofOuter? (ofText t) aliases l = (l.media? (ofText t) aliases).map .ok := by
  have hfrom : (ofText t).cellsFrom (l.start + 2) =
      l.inside.flatMap (·.cells) ++ l.closing.cells ++ z := by
    rw [← h.byteLength_opening, cellsFrom_append h.cells_opening]
  rw [MediaLink.ofOuter?, hfrom, h.written.aliasAt?_append ha, OuterLink.media?]
  cases hl : l.alias? aliases with
  | none => rfl
  | some a =>
    have hlt := h.written.length_lt ha hl
    simp only [Option.map_some]
    rw [if_neg (by omega)]

end Placed

theorem stop_le_of_outerLinks {t : Text} {before behind : List OuterLink} {l l' : OuterLink}
    (h : (ofText t).outerLinks = before ++ l :: behind) (hl : l' ∈ before) :
    l'.bytes.stop ≤ l.start := by
  obtain ⟨x, y, z, pre, d, e, hp, -⟩ := exists_placed h
  rw [hp.stands.start]
  exact (hp.stands.holds.bounds l' hl).2

theorem start_lt_of_outerLinks {t : Text} {before behind : List OuterLink} {l l' : OuterLink}
    (h : (ofText t).outerLinks = before ++ l :: behind) (hl : l' ∈ before) :
    l'.start < l.start := by
  have hstop := stop_le_of_outerLinks h hl
  have hmem : l' ∈ (ofText t).outerLinks := by
    rw [h]
    exact List.mem_append_left _ hl
  obtain ⟨_, _, _, _, _, _, _, hp⟩ := exists_placed_of_mem hmem
  have htext := hp.byteLength_pos
  have hbytes : l'.bytes.stop = l'.start + l'.text.byteLength := rfl
  omega

theorem eq_of_start_eq {t : Text} {before behind : List OuterLink} {l l' : OuterLink}
    (h : (ofText t).outerLinks = before ++ l :: behind) (hl : l' ∈ (ofText t).outerLinks)
    (hs : l'.start = l.start) : l' = l := by
  rw [h] at hl
  rcases List.mem_append.mp hl with hl | hl
  · have hlt := start_lt_of_outerLinks h hl
    omega
  · rcases List.mem_cons.mp hl with rfl | hl
    · rfl
    · obtain ⟨b, a, rfl⟩ := List.append_of_mem hl
      have he : before ++ l :: (b ++ l' :: a) = (before ++ l :: b) ++ l' :: a := by simp
      rw [he] at h
      have hmem : l ∈ before ++ l :: b := by simp
      have hlt := start_lt_of_outerLinks h hmem
      omega

theorem mapM_id_map_ok {α ε : Type} (xs : List α) :
    (xs.map (Except.ok : α → Except ε α)).mapM id = .ok xs := by
  induction xs with
  | nil => rfl
  | cons a xs ih =>
    rw [List.map_cons, List.mapM_cons, ih]
    rfl

theorem mediaLinks_eq {aliases : List Text} (ha : ∀ a ∈ aliases, Clean a) (t : Text) :
    (ofText t).mediaLinks aliases =
      .ok ((ofText t).outerLinks.filterMap (OuterLink.media? (ofText t) aliases)) := by
  have hall : ∀ l ∈ (ofText t).outerLinks,
      MediaLink.ofOuter? (ofText t) aliases l = (l.media? (ofText t) aliases).map .ok := by
    intro l hl
    obtain ⟨_, _, _, _, _, _, _, hp⟩ := exists_placed_of_mem hl
    exact hp.ofOuter?_eq ha
  rw [mediaLinks, List.filterMap_congr hall, ← List.map_filterMap, mapM_id_map_ok]

end Document

end Wikitext
