import Wikitext.ImageInsertion
import Wikitext.Proofs.MediaLinks
import Wikitext.Proofs.StepRanges

/-! An image put below the leading block. Line feeds part it from what it stands between, and no
template and no link is open there, so its link joins the media links of the article and the others
keep their order, their titles and their parameters. -/

namespace Wikitext

open Step OuterLink Document Lexeme

namespace Text

/-- At most one line break. -/
def Gap (w : Text) : Prop :=
  w = [] ∨ w = ['\n'] ∨ w = ['\r', '\n']

theorem gap_lineBreak (t : Text) : Gap t.lineBreak ∧ t.lineBreak ≠ [] := by
  rw [lineBreak]
  split
  · exact ⟨.inr (.inr rfl), List.cons_ne_nil _ _⟩
  · exact ⟨.inr (.inl rfl), List.cons_ne_nil _ _⟩

theorem Gap.newlines {w : Text} (h : Gap w) : Newlines (Cell.ofText w) := by
  have hchars := Cell.chars_ofText w
  generalize Cell.ofText w = x at hchars
  rcases h with rfl | rfl | rfl
  · obtain rfl : x = [] := List.map_eq_nil_iff.mp hchars
    exact .nil
  · obtain ⟨a, y, rfl, ha, hy⟩ := List.map_eq_cons_iff.mp hchars
    obtain rfl : y = [] := List.map_eq_nil_iff.mp hy
    exact .feed ha .nil
  · obtain ⟨a, y, rfl, ha, hy⟩ := List.map_eq_cons_iff.mp hchars
    obtain ⟨b, z, rfl, hb, hz⟩ := List.map_eq_cons_iff.mp hy
    obtain rfl : z = [] := List.map_eq_nil_iff.mp hz
    exact .pair ha hb .nil

theorem Gap.parted {w : Text} (h : Gap w) (t : Text) : Parted w t := by
  rcases h with rfl | rfl | rfl
  · exact parted_nil_left t
  · exact parted_after_lineFeed [] t
  · exact parted_after_lineFeed ['\r'] t

theorem Gap.parted_before {w : Text} (h : Gap w) (hne : w ≠ []) {c : Char}
    (hc : BreakClass.of c = .other) (s t : Text) : Parted (s ++ [c]) (w ++ t) := by
  rcases h with rfl | rfl | rfl
  · exact absurd rfl hne
  · rw [List.singleton_append, parted_cons, Tail.after_append, Tail.after_other hc]
    rfl
  · exact parted_before_cr _ _

theorem Gap.parted_of_ends {s u : Text} {c : Char} (hu : u.Gap)
    (hs : ∀ b ∈ s.getLast?, b = '\n' ∨ BreakClass.of b = .other)
    (hnil : u = [] → s = [] ∨ s.getLast? = some '\n') (t : Text) :
    Parted s (u ++ c :: t) := by
  rcases List.eq_nil_or_concat s with rfl | ⟨r, b, rfl⟩
  · exact parted_nil_left _
  · rw [List.concat_eq_append] at hs hnil ⊢
    rcases hs b (by simp) with rfl | hb
    · exact parted_after_lineFeed r _
    · refine hu.parted_before (fun he => ?_) hb r _
      obtain rfl : b = '\n' := by simpa using hnil he
      cases hb

end Text

namespace Text

/-- The line break between a leading block and markup put in below it. -/
def gapAbove (text head : Text) : Text :=
  if head = [] ∨ head.getLast? = some '\n' then [] else text.lineBreak

/-- The line break between markup and the text above which it is put in. -/
def gapBelow (text head tail : Text) : Text :=
  if head ≠ [] ∧ tail = [] then [] else text.lineBreak

theorem gap_gapAbove (text head : Text) : Gap (gapAbove text head) := by
  rw [gapAbove]
  split
  · exact .inl rfl
  · exact text.gap_lineBreak.1

theorem gap_gapBelow (text head tail : Text) : Gap (gapBelow text head tail) := by
  rw [gapBelow]
  split
  · exact .inl rfl
  · exact text.gap_lineBreak.1

theorem ends_of_gapAbove {text head : Text} (h : gapAbove text head = []) :
    head = [] ∨ head.getLast? = some '\n' := by
  by_contra hno
  rw [gapAbove, if_neg hno] at h
  exact text.gap_lineBreak.2 h

theorem tail_of_gapBelow {text head tail : Text} (h : gapBelow text head tail = []) :
    tail = [] := by
  by_contra hno
  rw [gapBelow, if_neg fun hboth => hno hboth.2] at h
  exact text.gap_lineBreak.2 h

end Text

theorem insertImage_eq {markup text head tail : Text} (hm : markup ≠ []) (ht : text ≠ [])
    (hhead : (LeadingBlock.ofDocument (.ofText text)).text = head) (htext : text = head ++ tail) :
    insertImage markup text =
      head ++ (text.gapAbove head ++ (markup ++ (text.gapBelow head tail ++ tail))) := by
  have hrest : (LeadingBlock.ofDocument (.ofText text)).rest = tail := by
    change text.drop (LeadingBlock.ofDocument (.ofText text)).text.length = tail
    rw [hhead, htext, List.drop_left]
  rw [insertImage, if_neg hm, if_neg ht, Text.gapAbove, Text.gapBelow]
  simp only [hhead, hrest]
  by_cases hnil : head = []
  · simp [hnil, htext]
  · simp [hnil]

/-- The text is one media link from its beginning to its end, and nothing is open behind it. -/
structure SoleLink (aliases : List Text) (markup : Text) (m : MediaLink) : Prop where
  links : (ofText markup).mediaLinks aliases = .ok [m]
  bytes : m.bytes = ⟨0, markup.byteLength⟩
  closed : ∀ s ∈ (ofText markup).steps.getLast?, s.depths = .zero

theorem SoleLink.exists_placed {aliases : List Text} {markup : Text} {m : MediaLink}
    (h : SoleLink aliases markup m) (ha : ∀ a ∈ aliases, Clean a) :
    ∃ l, Placed markup [] (Cell.ofText markup) [] [] l [] .zero .zero ∧
      l.media? (ofText markup) aliases = some m := by
  have hm : m ∈ (ofText markup).outerLinks.filterMap (media? (ofText markup) aliases) := by
    have hlinks := h.links
    rw [mediaLinks_eq ha] at hlinks
    rw [Except.ok.inj hlinks]
    exact List.mem_cons_self
  obtain ⟨l, hl, hmedia⟩ := List.mem_filterMap.mp hm
  obtain ⟨x, y, z, pre, before, d, e, hp⟩ := exists_placed_of_mem hl
  have hbytes : m.bytes = l.bytes := bytes_of_media? hmedia
  have hstart : (Cell.chars x).byteLength = 0 := by
    rw [← hp.start_eq]
    exact (congrArg ByteRange.start (hbytes.symm.trans h.bytes) : l.start = 0)
  obtain rfl : x = [] := List.map_eq_nil_iff.mp (Text.eq_nil_of_byteLength_eq_zero hstart)
  have hstop : l.start + l.text.byteLength = markup.byteLength :=
    congrArg ByteRange.stop (hbytes.symm.trans h.bytes)
  have hlen := congrArg (fun w => (Cell.chars w).byteLength) hp.cells
  simp only [Cell.chars_ofText, Cell.chars_append, Text.byteLength_append, Cell.chars_nil,
    Text.byteLength_nil] at hlen
  rw [hp.start_eq, hp.text_eq, Cell.chars_nil, Text.byteLength_nil] at hstop
  obtain rfl : z = [] := List.map_eq_nil_iff.mp (Text.eq_nil_of_byteLength_eq_zero (by
    change (Cell.chars z).byteLength = 0
    omega))
  obtain ⟨rfl, rfl⟩ := hp.ahead.of_nil
  obtain rfl : before = [] := by
    have hh := hp.stands.holds
    cases hh
    rfl
  have hcells := hp.cells
  rw [List.nil_append, List.append_nil] at hcells
  have hsteps : (ofText markup).steps = l.steps := by
    have hs := hp.link.scanFrom_eq_of_end
    rw [← hcells] at hs
    exact hs
  obtain rfl : e = .zero := by
    rw [hp.link.depths_of_getLast]
    apply h.closed
    rw [hsteps, OuterLink.steps, List.getLast?_concat]
    rfl
  rw [hcells]
  exact ⟨l, hp, hmedia⟩

theorem Newlines.exists_scans {x : List Cell} (h : Newlines x) (d : Depths) (z : List Cell) :
    ∃ ss, Scans d x z ss d ∧ ∀ s ∈ ss, opens s = false := by
  obtain ⟨ls, hp, hk, -⟩ := h.exists_passes z
  obtain ⟨ss, hg, hss⟩ := exists_groups_of_plain (d := d) fun l hl => (hk l hl).imp_right .inl
  refine ⟨ss, ⟨ls, hp, hg⟩, fun s hs => ?_⟩
  rcases (hss s hs).1 with hkind | hkind <;> simp [opens, hkind]

namespace LeadingBlock

/-- No link is open behind the leading block, and it does not end in a comment without an end. -/
structure Clear (d : Document) : Prop where
  closed : ∀ p ∈ place 0 d.steps,
    p.1.stop = (ofDocument d).text.byteLength → p.2.depths.link = 0
  ended : ∀ i ∈ (ofDocument d).items.getLast?, ¬ i.Unterminated

theorem exists_scans {text : Text}
    (h : (ofDocument (.ofText text)).text.byteLength = 0 ∨ Clear (.ofText text)) :
    ∃ x z ss, Cell.ofText text = x ++ z ∧ Cell.chars x = (ofDocument (.ofText text)).text ∧
      (∀ a ∈ x.getLast?, a.char = '\n' ∨ BreakClass.of a.char = .other) ∧
      Cell.atBoundary z = true ∧
      ∀ z', Cell.atBoundary z' = true → Scans .zero x z' ss .zero := by
  rcases h with hzero | hclear
  · refine ⟨[], _, [], rfl, ?_, by simp, Cell.atBoundary_ofText text, fun _ _ => .nil⟩
    exact (Text.eq_nil_of_byteLength_eq_zero hzero).symm
  · obtain ⟨x, z, hcells, hitems, hx, hz⟩ := exists_of_itemsOf (c := Cell.ofText text)
      (List.nil_append _).symm (Cell.atBoundary_ofText text) hclear.ended
    have hchars : Cell.chars x = (ofDocument (.ofText text)).text := hitems
    obtain ⟨ls, hs, hg⟩ := hx.reads
    obtain ⟨ss, m, hss⟩ := hg 0
    have hm : m = 0 := by
      have hscan : Scans .zero x z ss ⟨0, m⟩ := ⟨ls, hs z hz, hss⟩
      have hlen : (ofDocument (.ofText text)).text.byteLength = (textOf ss).byteLength := by
        rw [← hchars, hscan.textOf_eq]
      rcases List.eq_nil_or_concat ss with rfl | ⟨us, s, rfl⟩
      · cases hss
        rfl
      · rw [List.concat_eq_append] at hscan
        have hsteps : (ofText text).steps = us ++ s :: scanFrom ⟨0, m⟩ z := by
          have hall := hscan.scanFrom_eq
          rw [← hcells, List.append_assoc] at hall
          exact hall
        have hplace := mem_place 0 us (scanFrom ⟨0, m⟩ z) s
        rw [← hsteps] at hplace
        have hlink := hclear.closed _ hplace (by
          rw [hlen]
          simp)
        rwa [← hscan.depths_of_getLast] at hlink
    subst hm
    exact ⟨x, z, ss, hcells, hchars, hx.ends, hz, fun z' hz' => ⟨ls, hs z' hz', hss⟩⟩

end LeadingBlock

/-- The outermost links of some steps, and a link put among them between steps that open none. -/
theorem ofSteps_put {ss us vs rest : List Step} {l : OuterLink} {before : List OuterLink}
    (hss : Holds 0 ss before) (hus : ∀ s ∈ us, opens s = false) (hl : Stands 0 [] l [])
    (hvs : ∀ s ∈ vs, opens s = false) :
    ofSteps 0 (ss ++ (us ++ (l.steps ++ (vs ++ rest)))) =
      before ++ shift ((textOf ss).byteLength + (textOf us).byteLength) l ::
        (ofSteps (textOf ss).byteLength rest).map (shift ((textOf us).byteLength +
          (l.text.byteLength + (textOf vs).byteLength))) := by
  have hstart : l.start = 0 := by simpa using hl.start
  have hlink := hl.ofSteps_eq (vs ++ rest)
  rw [(holds_of_not_opens hvs).ofSteps_append] at hlink
  rw [hss.ofSteps_append, (holds_of_not_opens hus).ofSteps_append, Nat.zero_add, ← ofSteps_shift]
  have hshift := ofSteps_shift 0 ((textOf ss).byteLength + (textOf us).byteLength)
    (l.steps ++ (vs ++ rest))
  simp only [List.nil_append] at hlink
  rw [hlink, List.map_cons, ← ofSteps_shift, Nat.zero_add] at hshift
  rw [hshift, List.nil_append]
  simp only [bytes, hstart]
  congr 3
  omega

namespace Document

theorem parted_gapAbove (t : Text) {x : List Cell}
    (hends : ∀ a ∈ x.getLast?, a.char = '\n' ∨ BreakClass.of a.char = .other) (c : Char)
    (r : Text) : (Cell.chars x).Parted (t.gapAbove (Cell.chars x) ++ c :: r) := by
  refine (t.gap_gapAbove _).parted_of_ends (fun b hb => ?_) Text.ends_of_gapAbove r
  rw [Cell.chars, List.getLast?_map, Option.mem_def, Option.map_eq_some_iff] at hb
  obtain ⟨a, ha, rfl⟩ := hb
  exact hends a ha

theorem exists_cells_insertImage {markup text w : Text} {x z : List Cell} (ht : text ≠ [])
    (hm : markup = '[' :: w ++ [']']) (hcells : Cell.ofText text = x ++ z)
    (hx : Cell.chars x = (LeadingBlock.ofDocument (.ofText text)).text)
    (hends : ∀ a ∈ x.getLast?, a.char = '\n' ∨ BreakClass.of a.char = .other)
    (hz : Cell.atBoundary z = true) : ∃ u v, u.Gap ∧ v.Gap ∧
      insertImage markup text = Cell.chars x ++ (u ++ (markup ++ (v ++ Cell.chars z))) ∧
      (Cell.chars x).Parted (u ++ (markup ++ (v ++ Cell.chars z))) ∧
      Cell.ofText (insertImage markup text) =
        x ++ (Cell.ofText u ++ (Cell.ofText markup ++ (Cell.ofText v ++ z))) := by
  have hsplit : text = Cell.chars x ++ Cell.chars z := by
    rw [← Cell.chars_append, ← hcells, Cell.chars_ofText]
  have hne : markup ≠ [] := by simp [hm]
  have hins := insertImage_eq hne ht hx.symm hsplit
  have hu := Text.gap_gapAbove text (Cell.chars x)
  have hv := Text.gap_gapBelow text (Cell.chars x) (Cell.chars z)
  have hvz : markup.Parted (text.gapBelow (Cell.chars x) (Cell.chars z) ++ Cell.chars z) := by
    by_cases hne : text.gapBelow (Cell.chars x) (Cell.chars z) = []
    · rw [hne, Text.tail_of_gapBelow hne]
      exact Text.parted_nil_right _
    · rw [hm]
      exact hv.parted_before hne rfl _ _
  have hux := parted_gapAbove text hends '[' (w ++ [']'] ++
    (text.gapBelow (Cell.chars x) (Cell.chars z) ++ Cell.chars z))
  rw [← List.cons_append, ← List.cons_append, ← hm] at hux
  refine ⟨_, _, hu, hv, hins, hux, ?_⟩
  rw [hins, Text.ofText_append hux, Text.ofText_append (hu.parted _), Text.ofText_append hvz,
    Text.ofText_append (hv.parted _), Text.ofText_chars_of_atBoundary hcells hz,
    ← (Text.cells_of_ofText_eq_append hcells).1]

/-- `Grows text text' head tail w l n ahead behind`: between `head` and `tail` the text `w` is put
in, which holds the link `l` behind its first `n` bytes. The links `ahead` of it stay, and those
`behind` it move. -/
structure Grows (text text' head w tail : Text) (l : OuterLink) (n : Nat)
    (ahead behind : List OuterLink) : Prop where
  text_eq : text = head ++ tail
  text_eq' : text' = head ++ (w ++ tail)
  parted : head.Parted tail
  parted' : head.Parted (w ++ tail)
  links : (ofText text).outerLinks = ahead ++ behind
  links' : (ofText text').outerLinks = ahead ++ shift (head.byteLength + n) l ::
    behind.map (shift w.byteLength)
  stop_ahead : ∀ k ∈ ahead, k.bytes.stop ≤ head.byteLength
  start_behind : ∀ k ∈ behind, head.byteLength ≤ k.start

/-- The steps of the new document: those of the leading block, of the line breaks, of the link and
of what stands behind. -/
theorem exists_steps_put {x z : List Cell} {ss : List Step} {u v markup : Text} {l : OuterLink}
    (hss : ∀ z', Cell.atBoundary z' = true → Scans .zero x z' ss .zero)
    (hz : Cell.atBoundary z = true) (hu : u.Gap) (hv : v.Gap)
    (hp : Placed markup [] (Cell.ofText markup) [] [] l [] .zero .zero) : ∃ us vs,
      scanFrom .zero (x ++ (Cell.ofText u ++ (Cell.ofText markup ++ (Cell.ofText v ++ z)))) =
        ss ++ (us ++ (l.steps ++ (vs ++ scanFrom .zero z))) ∧
      textOf us = u ∧ textOf vs = v ∧
      (∀ s ∈ us, opens s = false) ∧ ∀ s ∈ vs, opens s = false := by
  have htail : Cell.atBoundary (Cell.ofText v ++ z) = true :=
    Cell.atBoundary_append_of (Cell.atBoundary_ofText v) hz
  have hhead : Cell.atBoundary
      (Cell.ofText u ++ (Cell.ofText markup ++ (Cell.ofText v ++ z))) = true :=
    Cell.atBoundary_append_of (Cell.atBoundary_ofText u)
      (Cell.atBoundary_append_of (Cell.atBoundary_ofText markup) htail)
  obtain ⟨us, hus, huopen⟩ :=
    hu.newlines.exists_scans .zero (Cell.ofText markup ++ (Cell.ofText v ++ z))
  obtain ⟨vs, hvs, hvopen⟩ := hv.newlines.exists_scans .zero z
  have hl : Scans .zero (Cell.ofText markup) (Cell.ofText v ++ z) l.steps .zero :=
    hp.link.replace_after (p := l.opening :: l.inside)
      (by simp [(closes_iff.mp hp.stands.closing).1]) htail
  refine ⟨us, vs, ?_, ?_, ?_, huopen, hvopen⟩
  · rw [(hss _ hhead).scanFrom_eq, hus.scanFrom_eq, hl.scanFrom_eq, hvs.scanFrom_eq]
  · rw [hus.textOf_eq, Cell.chars_ofText]
  · rw [hvs.textOf_eq, Cell.chars_ofText]

theorem exists_grows {aliases : List Text} (ha : ∀ a ∈ aliases, Clean a) {text markup : Text}
    (htext : text ≠ []) {m : MediaLink} (hm : SoleLink aliases markup m)
    (hclear : (LeadingBlock.ofDocument (.ofText text)).text.byteLength = 0 ∨
      LeadingBlock.Clear (.ofText text)) : ∃ u v tail l ahead behind, u.Gap ∧ v.Gap ∧
      l.media? (ofText markup) aliases = some m ∧
      Grows text (insertImage markup text) (LeadingBlock.ofDocument (.ofText text)).text
        (u ++ (markup ++ v)) tail l u.byteLength ahead behind := by
  obtain ⟨l, hp, hmedia⟩ := hm.exists_placed ha
  obtain ⟨w, hw⟩ := hp.exists_text_eq
  rw [hp.text_eq, Cell.chars_ofText] at hw
  obtain ⟨x, z, ss, hcells, hx, hends, hz, hss⟩ := LeadingBlock.exists_scans hclear
  obtain ⟨u, v, hu, hv, hins, hux, hcells'⟩ :=
    exists_cells_insertImage htext hw hcells hx hends hz
  obtain ⟨us, vs, hsteps', hut, hvt, huopen, hvopen⟩ := exists_steps_put hss hz hu hv hp
  rw [← hcells'] at hsteps'
  have hsteps : (ofText text).steps = ss ++ scanFrom .zero z := by
    rw [← (hss z hz).scanFrom_eq, ← hcells]
    rfl
  have hnew : (ofText (insertImage markup text)).steps =
      ss ++ (us ++ (l.steps ++ (vs ++ scanFrom .zero z))) := hsteps'
  have hholds : Holds 0 ss (ofSteps 0 ss) := holds_of_scans (hss z hz) rfl rfl 0
  refine ⟨u, v, Cell.chars z, l, ofSteps 0 ss,
    ofSteps (Cell.chars x).byteLength (scanFrom .zero z), hu, hv, hmedia, ?_, ?_, ?_, ?_, ?_, ?_,
    fun k hk => ?_, fun k hk => ?_⟩
  · rw [← hx, ← Cell.chars_append, ← hcells, Cell.chars_ofText]
  · rw [← hx, hins]
    simp only [List.append_assoc]
  · rw [← hx, Text.parted_of_ofText_eq_append hcells]
    exact hz
  · rw [← hx]
    simpa only [List.append_assoc] using hux
  · rw [outerLinks, hsteps, hholds.ofSteps_append, Nat.zero_add, (hss z hz).textOf_eq]
  · rw [outerLinks, hnew, ofSteps_put hholds huopen hp.stands hvopen, (hss z hz).textOf_eq, hut,
      hvt, hp.text_eq, ← hx]
    simp only [Cell.chars_ofText, Text.byteLength_append]
  · have hstop := (hholds.bounds k hk).2
    rwa [(hss z hz).textOf_eq, Nat.zero_add, hx] at hstop
  · obtain ⟨b, a, he⟩ := List.append_of_mem hk
    obtain ⟨pre, post, -, hst, -⟩ := exists_stands he
    rw [hst.start, hx]
    exact Nat.le_add_right _ _

namespace Grows

variable {text text' head w tail : Text} {l : OuterLink} {n : Nat} {ahead behind : List OuterLink}

theorem media?_ahead (h : Grows text text' head w tail l n ahead behind) {aliases : List Text}
    {k : OuterLink} (hk : k ∈ ahead) :
    k.media? (ofText text') aliases = k.media? (ofText text) aliases := by
  rw [h.text_eq, h.text_eq']
  exact media?_congr h.parted h.parted' (h.stop_ahead k hk) aliases

theorem stop_behind (h : Grows text text' head w tail l n ahead behind) {k : OuterLink}
    (hk : k ∈ behind) : head.byteLength < k.bytes.stop := by
  have hmem : k ∈ (ofText text).outerLinks := by
    rw [h.links]
    exact List.mem_append_right _ hk
  obtain ⟨_, _, _, _, _, _, _, hp⟩ := exists_placed_of_mem hmem
  have hpos := hp.byteLength_pos
  have hstart := h.start_behind k hk
  change head.byteLength < k.start + k.text.byteLength
  omega

theorem filter_eq (h : Grows text text' head w tail l n ahead behind) (aliases : List Text) :
    ((ofText text).outerLinks.filterMap (media? (ofText text) aliases)).filter
        (·.bytes.stop ≤ head.byteLength) =
      ahead.filterMap (media? (ofText text) aliases) ∧
    ((ofText text).outerLinks.filterMap (media? (ofText text) aliases)).filter
        (head.byteLength < ·.bytes.stop) =
      behind.filterMap (media? (ofText text) aliases) := by
  have hahead : ∀ m ∈ ahead.filterMap (media? (ofText text) aliases),
      m.bytes.stop ≤ head.byteLength := by
    intro m hm
    obtain ⟨k, hk, hmk⟩ := List.mem_filterMap.mp hm
    rw [bytes_of_media? hmk]
    exact h.stop_ahead k hk
  have hbehind : ∀ m ∈ behind.filterMap (media? (ofText text) aliases),
      head.byteLength < m.bytes.stop := by
    intro m hm
    obtain ⟨k, hk, hmk⟩ := List.mem_filterMap.mp hm
    rw [bytes_of_media? hmk]
    exact h.stop_behind hk
  rw [h.links, List.filterMap_append, List.filter_append, List.filter_append]
  constructor
  · rw [List.filter_eq_self.mpr (by simpa using hahead),
      List.filter_eq_nil_iff.mpr (by simpa using hbehind), List.append_nil]
  · rw [List.filter_eq_nil_iff.mpr (by simpa using hahead),
      List.filter_eq_self.mpr (by simpa using hbehind), List.nil_append]

end Grows

end Document

/-- An image put below the leading block is one more media link there. The links in front of it
stay as they are, and those behind it move by what is put in. -/
theorem mediaLinks_insertImage {aliases : List Text} (ha : ∀ a ∈ aliases, Clean a)
    {text markup : Text} (htext : text ≠ []) {m : MediaLink} (hm : SoleLink aliases markup m)
    {head : Text} (hhead : head = (LeadingBlock.ofDocument (.ofText text)).text)
    (hclear : head.byteLength = 0 ∨ LeadingBlock.Clear (.ofText text)) :
    ∃ u v tail links, u.Gap ∧ v.Gap ∧ text = head ++ tail ∧
      insertImage markup text = head ++ (u ++ (markup ++ v) ++ tail) ∧
      (ofText text).mediaLinks aliases = .ok links ∧
      (ofText (insertImage markup text)).mediaLinks aliases =
        .ok (links.filter (·.bytes.stop ≤ head.byteLength) ++
          m.moved (.ofText (insertImage markup text)) (head.byteLength + u.byteLength) ::
          (links.filter (head.byteLength < ·.bytes.stop)).map
            (MediaLink.moved (.ofText (insertImage markup text))
              (u ++ (markup ++ v)).byteLength)) := by
  subst hhead
  obtain ⟨u, v, tail, l, ahead, behind, hu, hv, hmedia, h⟩ := exists_grows ha htext hm hclear
  refine ⟨u, v, tail, _, hu, hv, h.text_eq, h.text_eq', mediaLinks_eq ha text, ?_⟩
  obtain ⟨hfirst, hlast⟩ := h.filter_eq aliases
  rw [mediaLinks_eq ha, hfirst, hlast, h.links', List.filterMap_append, List.filterMap_cons,
    media?_shift (ofText markup), hmedia, filterMap_media?_shift (ofText text),
    List.filterMap_congr fun k hk => h.media?_ahead hk]
  rfl

/-- An article that opens with a template around one image and a comment, with another image
behind them. -/
def boxedArticle : Text :=
  "\x7b\x7bBox|[[File:A]]\x7d\x7d<!-- b --> c [[File:D|e]]".toList

theorem mediaLinks_insertImage_boxedArticle :
    let m : MediaLink := ⟨"File".toList, "F".toList, ["g".toList], ⟨0, 12⟩, ⟨0, 12⟩⟩
    let text' := insertImage "[[File:F|g]]".toList boxedArticle
    SoleLink ["File".toList] "[[File:F|g]]".toList m ∧ LeadingBlock.Clear (ofText boxedArticle) ∧
    ∃ u v links, Text.Gap u ∧ Text.Gap v ∧
      (ofText boxedArticle).mediaLinks ["File".toList] = .ok links ∧
      (ofText text').mediaLinks ["File".toList] =
        .ok (links.filter (·.bytes.stop ≤ 28) ++ m.moved (ofText text') (28 + u.byteLength) ::
          (links.filter (28 < ·.bytes.stop)).map
            (MediaLink.moved (ofText text') (u ++ ("[[File:F|g]]".toList ++ v)).byteLength)) := by
  intro m text'
  have ha : ∀ a ∈ ["File".toList], Clean a := by decide
  have hm : SoleLink ["File".toList] "[[File:F|g]]".toList m :=
    ⟨by decide +kernel, rfl, by decide +kernel⟩
  have hclear : LeadingBlock.Clear (ofText boxedArticle) :=
    ⟨by decide +kernel, by decide +kernel⟩
  have hhead : (LeadingBlock.ofDocument (ofText boxedArticle)).text.byteLength = 28 := by
    decide +kernel
  obtain ⟨u, v, -, links, hu, hv, -, -, hlinks, hlinks'⟩ :=
    mediaLinks_insertImage ha (by decide) hm rfl (.inr hclear)
  rw [hhead] at hlinks'
  exact ⟨hm, hclear, u, v, links, hu, hv, hlinks, hlinks'⟩

end Wikitext
