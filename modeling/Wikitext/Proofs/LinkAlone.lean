import Wikitext.Caption
import Wikitext.Proofs.AltPlacing
import Wikitext.Proofs.StepRanges

/-! A link read on its own, from the text it covers. Link depths do not depend on the templates that
are open, so the text is one link and has the same alias. When no template around the link is closed
inside it, it has the same title and the same parameters too. -/

namespace Wikitext

open Step OuterLink Document Lexeme

namespace Step

/-- A step without the number of templates that are open, as a search for links sees it. -/
def outline (s : Step) : List Cell × Bool × Bool :=
  (s.cells, opens s, closes s)

theorem outline_after (d : Depths) (n : Nat) (k : LexemeKind) (cells : List Cell) :
    ((⟨n, d.link⟩ : Depths).after k).2.link = (d.after k).2.link ∧
      outline ⟨((⟨n, d.link⟩ : Depths).after k).1, cells, ((⟨n, d.link⟩ : Depths).after k).2⟩ =
        outline ⟨(d.after k).1, cells, (d.after k).2⟩ := by
  cases k with
  | templateClose =>
    by_cases hd : d.template = 0 <;> by_cases hn : n = 0 <;>
      simp [outline, opens, closes, Depths.after, hd, hn]
  | linkClose =>
    by_cases hl : d.link = 0 <;> simp [outline, opens, closes, Depths.after, hl]
  | _ => exact ⟨rfl, rfl⟩

/-- Lexemes open and close the same links however many templates are open before them. -/
theorem Groups.exists_of_template {d e : Depths} {ls : List Lexeme} {ss : List Step}
    (h : Groups d ls ss e) (n : Nat) :
    ∃ ss' m, Groups ⟨n, d.link⟩ ls ss' ⟨m, e.link⟩ ∧ ss'.map outline = ss.map outline := by
  induction h generalizing n with
  | nil => exact ⟨[], n, .nil, rfl⟩
  | @lexeme d _ l _ _ hk _ ih =>
    obtain ⟨hlink, hout⟩ := outline_after d n l.kind l.cells
    obtain ⟨ss', m, hg, hss⟩ := ih ((⟨n, d.link⟩ : Depths).after l.kind).2.template
    rw [← hlink] at hg
    exact ⟨_, m, .lexeme hk hg, congrArg₂ (· :: ·) hout hss⟩
  | comment hl hb hc _ ih =>
    obtain ⟨ss', m, hg, hss⟩ := ih n
    exact ⟨_, m, .comment hl hb hc hg, congrArg (_ :: ·) hss⟩

end Step

namespace OuterLink

theorem alias?_congr {l l' : OuterLink} (hi : l'.inside.map outline = l.inside.map outline)
    (hc : outline l'.closing = outline l.closing) (aliases : List Text) :
    l'.alias? aliases = l.alias? aliases := by
  have hcells (ss : List Step) : ss.flatMap (·.cells) = (ss.map outline).flatMap (·.1) := by
    rw [List.flatMap_map]
    rfl
  rw [alias?, alias?, hcells, hi, ← hcells, show l'.closing.cells = l.closing.cells from
    congrArg Prod.fst hc]

end OuterLink

namespace Document

namespace Placed

variable {t : Text} {x y z : List Cell} {pre : List Step} {l : OuterLink}
  {before : List OuterLink} {d e : Depths}

theorem exists_alone (h : Placed t x y z pre l before d e) : ∃ l',
    (ofText (Cell.chars y)).outerLinks = [l'] ∧ l'.bytes = ⟨0, (Cell.chars y).byteLength⟩ ∧
      ∀ aliases, l'.alias? aliases = l.alias? aliases := by
  obtain ⟨ls, hp, hg⟩ := h.link.replace (replaces_nil h.atBoundary_behind)
  obtain ⟨ss, m, hg', hout⟩ := hg.exists_of_template 0
  have hzero : (⟨0, d.link⟩ : Depths) = .zero := by
    rw [h.depths_eq.1]
    rfl
  rw [hzero] at hg'
  have hscan : Scans .zero y [] ss ⟨m, e.link⟩ := ⟨ls, hp, hg'⟩
  -- The steps are those of the link, up to the templates that are open.
  simp only [OuterLink.steps, List.cons_append, List.map_cons, List.map_append,
    List.map_nil] at hout
  obtain ⟨o, rest, rfl, ho, hrest⟩ := List.map_eq_cons_iff.mp hout
  obtain ⟨inside, tail, rfl, hi, htail⟩ := List.map_eq_append_iff.mp hrest
  obtain ⟨c, behind, rfl, hc, hbehind⟩ := List.map_eq_cons_iff.mp htail
  obtain rfl := List.map_eq_nil_iff.mp hbehind
  have hopens : opens o = true := by
    rw [← h.stands.opening]
    exact congrArg (·.2.1) ho
  have hcloses : closes c = true := by
    rw [← h.stands.closing]
    exact congrArg (·.2.2) hc
  have hinside : ∀ s ∈ inside, closes s = false := by
    intro s hs
    have hmem : outline s ∈ l.inside.map outline := hi ▸ List.mem_map_of_mem hs
    obtain ⟨s', hs', he⟩ := List.mem_map.mp hmem
    rw [← h.stands.inside s' hs']
    exact congrArg (·.2.2) he.symm
  have hsteps : (ofText (Cell.chars y)).steps = o :: (inside ++ c :: []) := by
    rw [Document.steps, Step.scan, cells_ofText,
      Text.ofText_chars_of_eq_append h.cells h.atBoundary, hscan.scanFrom_eq_of_end]
  refine ⟨⟨0, o, inside, c⟩, ?_, ?_, alias?_congr hi hc⟩
  · rw [Document.outerLinks, hsteps]
    exact (Holds.link hopens hinside hcloses .nil).ofSteps_eq
  · have htext : (⟨0, o, inside, c⟩ : OuterLink).text = Cell.chars y := hscan.textOf_eq
    rw [OuterLink.bytes, htext, Nat.zero_add]

end Placed

/-- No template that is open at the beginning of some bytes is closed in them. -/
def KeepsTemplates (d : Document) (bytes : ByteRange) : Prop :=
  ∀ o ∈ d.stepsFrom 0, o.1.start = bytes.start → ∀ s ∈ d.stepsFrom 0,
    bytes.start ≤ s.1.start → s.1.stop ≤ bytes.stop → o.2.depths.template ≤ s.2.depths.template

instance (d : Document) (bytes : ByteRange) : Decidable (d.KeepsTemplates bytes) :=
  inferInstanceAs (Decidable (∀ o ∈ d.stepsFrom 0, o.1.start = bytes.start →
    ∀ s ∈ d.stepsFrom 0, bytes.start ≤ s.1.start → s.1.stop ≤ bytes.stop →
      o.2.depths.template ≤ s.2.depths.template))

theorem keepsTemplates_of_outside {d : Document} {bytes : ByteRange}
    (h : ∀ o ∈ d.stepsFrom 0, o.1.start = bytes.start → o.2.depths.template = 0) :
    d.KeepsTemplates bytes := by
  intro o ho hstart s _ _ _
  rw [h o ho hstart]
  exact Nat.zero_le _

namespace Placed

variable {t : Text} {x y z : List Cell} {pre : List Step} {l : OuterLink}
  {before : List OuterLink} {d e : Depths} {aliases : List Text} {k : MediaLink}

theorem keeps (h : Placed t x y z pre l before d e)
    (hk : (ofText t).KeepsTemplates l.bytes) : l.Keeps := by
  intro s hs
  obtain ⟨us, vs, hi⟩ := List.append_of_mem hs
  have hstart : l.bytes.start = 0 + (textOf pre).byteLength := h.stands.start
  have hstop : l.bytes.stop = l.bytes.start + (textOf l.steps).byteLength := rfl
  have hsteps : (ofText t).stepsFrom 0 = place 0 (pre ++ l.opening ::
      (us ++ s :: (vs ++ l.closing :: scanFrom e z))) := by
    rw [stepsFrom_zero, h.steps_eq, OuterLink.steps, hi]
    simp
  have hopening := mem_place 0 pre (us ++ s :: (vs ++ l.closing :: scanFrom e z)) l.opening
  have hstep := mem_place 0 (pre ++ l.opening :: us) (vs ++ l.closing :: scanFrom e z) s
  rw [List.append_assoc, List.cons_append] at hstep
  rw [← hsteps] at hopening hstep
  apply hk _ hopening hstart.symm _ hstep
  · simp only [hstart, textOf_append, Text.byteLength_append]
    omega
  · simp only [hstop, hstart, OuterLink.steps, hi, textOf_append, textOf_cons,
      Text.byteLength_append, List.cons_append]
    omega

theorem exists_mediaLinks_alone (h : Placed t x y z pre l before d e)
    (ha : ∀ a ∈ aliases, Clean a) (hk : l.media? (ofText t) aliases = some k) :
    ∃ k', (ofText (Cell.chars y)).mediaLinks aliases = .ok [k'] ∧
      k'.bytes = ⟨0, (Cell.chars y).byteLength⟩ ∧ k'.aliasUsed = k.aliasUsed := by
  obtain ⟨a, hal, rfl⟩ := Option.map_eq_some_iff.mp hk
  obtain ⟨l', houter, hbytes, halias⟩ := h.exists_alone
  refine ⟨⟨a, l'.title.drop (a.length + 1), l'.params, l'.bytes,
    (ofText (Cell.chars y)).spanOf l'.bytes⟩, ?_, hbytes, rfl⟩
  rw [mediaLinks_eq ha, houter, List.filterMap_cons, media?, halias, hal]
  rfl

theorem exists_mediaLinks_alone_of_keeps (h : Placed t x y z pre l before d e)
    (ha : ∀ a ∈ aliases, Clean a) (hk : l.media? (ofText t) aliases = some k)
    (hkeeps : l.Keeps) :
    ∃ k', (ofText (Cell.chars y)).mediaLinks aliases = .ok [k'] ∧
      k'.title = k.title ∧ k'.params = k.params := by
  obtain ⟨htitle, hparams⟩ := List.cons.inj hkeeps.title_alone
  obtain ⟨a, hal, rfl⟩ := Option.map_eq_some_iff.mp hk
  refine ⟨⟨a, l.alone.title.drop (a.length + 1), l.alone.params, l.alone.bytes,
    (ofText (Cell.chars y)).spanOf l.alone.bytes⟩, ?_, by rw [htitle], hparams⟩
  rw [mediaLinks_eq ha, h.outerLinks_alone hkeeps, List.filterMap_cons, media?, alias?_alone, hal]
  rfl

end Placed

/-- What a link reads as from its text alone: one link, from its beginning to its end, with its
alias. If no template around it is closed in it, nothing of it is lost: a caption and a place for
alternative text are found there as in the document. -/
theorem mediaLinks_slice {aliases : List Text} (ha : ∀ a ∈ aliases, Clean a) (t : Text) :
    ∃ links, (ofText t).mediaLinks aliases = .ok links ∧ ∀ k ∈ links, ∃ m k',
      m = t.slice k.bytes.start k.bytes.stop ∧ (ofText m).mediaLinks aliases = .ok [k'] ∧
      k'.bytes = ⟨0, m.byteLength⟩ ∧ k'.aliasUsed = k.aliasUsed ∧
      ((∀ o ∈ (ofText t).stepsFrom 0, o.1.start = k.bytes.start → o.2.depths.template = 0) →
        (ofText t).KeepsTemplates k.bytes) ∧
      ((ofText t).KeepsTemplates k.bytes → k'.title = k.title ∧ k'.params = k.params ∧
        (∀ keywords, k'.caption? keywords = k.caption? keywords) ∧
        ∀ alt caption, addAlt? alt caption m = (AltPlace.ofCaption? caption k.params).map
          fun place => render k.file (place.insert alt k.params)) := by
  refine ⟨_, mediaLinks_eq ha t, fun k hk => ?_⟩
  obtain ⟨l, hl, hk⟩ := List.mem_filterMap.mp hk
  obtain ⟨x, y, z, pre, before, d, e, hp⟩ := exists_placed_of_mem hl
  obtain ⟨k', hlinks, hbytes, halias⟩ := hp.exists_mediaLinks_alone ha hk
  rw [bytes_of_media? hk, hp.slice_eq]
  refine ⟨_, k', rfl, hlinks, hbytes, halias, keepsTemplates_of_outside, fun hkeeps => ?_⟩
  obtain ⟨k'', hlinks', htitle, hparams⟩ :=
    hp.exists_mediaLinks_alone_of_keeps ha hk (hp.keeps hkeeps)
  obtain rfl : k' = k'' := by simpa using hlinks.symm.trans hlinks'
  refine ⟨htitle, hparams, fun keywords => ?_, fun alt caption => ?_⟩
  · rw [MediaLink.caption?, hparams, MediaLink.caption?]
  · have hfile : l.params = k.params := by
      obtain ⟨a, -, rfl⟩ := Option.map_eq_some_iff.mp hk
      rfl
    rw [hp.addAlt?_eq (hp.keeps hkeeps), title_eq_file ha hp.written hk, hfile]

/-- An image in whose caption the template around it is closed, and one that holds a template. -/
def crossedArticle : Text :=
  "{{Box|[[File:A|b}}|c]] [[File:D|e {{f|g}} h]]".toList

theorem mediaLinks_slice_crossedArticle :
    (∃ k', (ofText "[[File:A|b\x7d\x7d|c]]".toList).mediaLinks ["File".toList] = .ok [k'] ∧
      k'.bytes = ⟨0, 16⟩ ∧ k'.aliasUsed = "File".toList) ∧
    ∃ k', (ofText "[[File:D|e {{f|g}} h]]".toList).mediaLinks ["File".toList] =
        .ok [k'] ∧ k'.bytes = ⟨0, 22⟩ ∧ k'.title = "D".toList ∧
      k'.params = ["e {{f|g}} h".toList] := by
  have haliases : ∀ a ∈ ["File".toList], Clean a := by decide
  obtain ⟨links, hlinks, hall⟩ := mediaLinks_slice haliases crossedArticle
  have hboth : (ofText crossedArticle).mediaLinks ["File".toList] = .ok
      [⟨"File".toList, "A".toList, ["b\x7d\x7d|c".toList], ⟨6, 22⟩, ⟨6, 16⟩⟩,
        ⟨"File".toList, "D".toList, ["e {{f|g}} h".toList], ⟨23, 45⟩, ⟨23, 22⟩⟩] := by
    decide +kernel
  obtain rfl := Except.ok.inj (hlinks.symm.trans hboth)
  obtain ⟨m, k, hm, hk, hbytes, halias, -⟩ := hall _ List.mem_cons_self
  obtain ⟨m', k', hm', hk', hbytes', -, -, hkeeps⟩ :=
    hall _ (List.mem_cons_of_mem _ List.mem_cons_self)
  obtain ⟨htitle, hparams, -⟩ := hkeeps (by decide +kernel)
  have he : m = "[[File:A|b\x7d\x7d|c]]".toList := hm.trans (by decide +kernel)
  have he' : m' = "[[File:D|e {{f|g}} h]]".toList := hm'.trans (by decide +kernel)
  rw [he] at hk hbytes
  rw [he'] at hk' hbytes'
  exact ⟨⟨k, hk, hbytes, halias⟩, k', hk', hbytes', htitle, hparams⟩

end Document

end Wikitext
