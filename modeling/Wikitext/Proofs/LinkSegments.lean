import Wikitext.Proofs.AltPlacing
import Wikitext.Proofs.Tiling

/-! A media link is a split of its text without loss. The title and the parameters are the
stretches between the separators of the link, from behind the alias to its `]]`. The alias may reach
into several steps, but it ends before the first separator. -/

namespace Wikitext

open Step OuterLink

/-- The stretches from `first` to `last` between the bars. -/
def ByteRange.stretches (first last : Nat) : List ByteRange → List ByteRange
  | [] => [⟨first, last⟩]
  | b :: bs => ⟨first, b.start⟩ :: stretches b.stop last bs

/-- At the bytes `r` the text `t` is `u`. -/
def Text.Fills (t : Text) (r : ByteRange) (u : Text) : Prop :=
  t.WrittenAt u r.start ∧ r.stop = r.start + u.byteLength

namespace Text.Fills

variable {t u v : Text} {r : ByteRange}

theorem le (h : t.Fills r u) : r.start ≤ r.stop := by
  rw [h.2]
  exact Nat.le_add_right _ _

theorem slice_eq (h : t.Fills r u) : t.slice r.start r.stop = u := by
  obtain ⟨⟨before, behind, rfl, hstart⟩, hstop⟩ := h
  rw [hstop, ← hstart, Text.slice_append]

theorem drop (h : t.Fills r (u ++ v)) : t.Fills ⟨r.start + u.byteLength, r.stop⟩ v := by
  obtain ⟨⟨before, behind, rfl, hstart⟩, hstop⟩ := h
  refine ⟨⟨before ++ u, behind, by simp, by simp [hstart]⟩, ?_⟩
  rw [hstop, Text.byteLength_append, Nat.add_assoc]

end Text.Fills

section Stretches

variable {t : Text} {rs : List ByteRange} {first last : Nat}

theorem map_slice_of_fills {us : List Text} (h : List.Forall₂ t.Fills rs us) :
    (∀ r ∈ rs, r.start ≤ r.stop) ∧ rs.map (fun r => t.slice r.start r.stop) = us := by
  induction h with
  | nil => exact ⟨by simp, rfl⟩
  | cons h _ ih => exact ⟨List.forall_mem_cons.mpr ⟨h.le, ih.1⟩, congrArg₂ _ h.slice_eq ih.2⟩

/-- What the first part begins with can be left out of the first stretch. -/
theorem fills_stretches_drop {a u : Text} {us : List Text}
    (h : List.Forall₂ t.Fills (ByteRange.stretches first last rs) ((a ++ u) :: us)) :
    List.Forall₂ t.Fills (ByteRange.stretches (first + a.byteLength) last rs) (u :: us) := by
  cases rs <;> cases h with | cons h hs => exact .cons h.drop hs

/-- The parts of some steps fill the stretches between the steps at which they are cut. The text
`w` is what the first part holds before these steps. -/
theorem fills_stretches (cut : Step → Bool) {u w v : Text} {ss : List Step}
    (h : t = u ++ (w ++ (textOf ss ++ v))) :
    List.Forall₂ t.Fills
      (ByteRange.stretches u.byteLength (u ++ (w ++ textOf ss)).byteLength
        (((place (u ++ w).byteLength ss).filter (cut ·.2)).map (·.1)))
      ((w ++ textOf (splitAt cut ss).1) :: (splitAt cut ss).2.map textOf) := by
  induction ss generalizing u w with
  | nil =>
    refine .cons ⟨⟨u, v, ?_, rfl⟩, ?_⟩ .nil
    · simpa [splitAt] using h
    · simp [splitAt]
  | cons s ss ih =>
    rw [splitAt_cons, place]
    by_cases hs : cut s = true
    · have hrest := ih (u := u ++ (w ++ s.text)) (w := []) (by simpa using h)
      rw [if_pos hs, List.filter_cons, if_pos hs]
      refine .cons ⟨⟨u, textOf (s :: ss) ++ v, ?_, rfl⟩, ?_⟩ ?_
      · simpa using h
      · simp
      · simpa [segments, Nat.add_assoc] using hrest
    · have hrest := ih (u := u) (w := w ++ s.text) (by simpa using h)
      rw [if_neg hs, List.filter_cons, if_neg hs]
      simpa [Nat.add_assoc] using hrest

end Stretches

namespace Document

/-- The separators among the bytes `r` of a link that opens at the template depth given. -/
def bars (d : Document) (r : ByteRange) (template : Nat) : List ByteRange :=
  ((d.stepsFrom 0).filter fun p =>
    r.start ≤ p.1.start && p.1.stop ≤ r.stop && separates template p.2).map (·.1)

/-- The link `m` stands in the document from its first step `o` to its last one `c`, which begins at
the byte `last`, and each of its parts is a stretch of what is between them. -/
structure Splits (d : Document) (m : MediaLink) (o c : Step) (last : Nat) : Prop where
  opening : (⟨m.bytes.start, m.bytes.start + 2⟩, o) ∈ d.stepsFrom 0 ∧ opens o = true
  closing : (⟨last, m.bytes.stop⟩, c) ∈ d.stepsFrom 0 ∧ closes c = true
  text : d.text.slice m.bytes.start m.bytes.stop = ['[', '['] ++ (m.aliasUsed ++ [':']) ++
    m.title ++ m.params.flatMap ('|' :: ·) ++ [']', ']']
  parts :
    let rs := ByteRange.stretches (m.bytes.start + 2 + Text.byteLength (m.aliasUsed ++ [':'])) last
      (d.bars m.bytes o.depths.template)
    (∀ r ∈ rs, r.start ≤ r.stop) ∧
      rs.map (fun r => d.text.slice r.start r.stop) = m.title :: m.params

theorem start_lt_of_mem_stepsFrom {t : Text} {byte : Nat} {p : ByteRange × Step}
    (h : p ∈ (ofText t).stepsFrom byte) : p.1.start < p.1.stop := by
  obtain ⟨_, _, _, _, _, _, hn, hstop⟩ := exists_of_mem_stepsFrom h
  rw [hstop]
  exact Nat.lt_add_of_pos_right (byteLength_pos_of_next? hn)

namespace Placed

variable {t : Text} {x y z : List Cell} {pre : List Step} {l : OuterLink}
  {before : List OuterLink} {d e : Depths}

theorem stepsFrom_eq (h : Placed t x y z pre l before d e) : ∃ behind,
    (ofText t).stepsFrom 0 = place 0 pre ++
      ((⟨l.start, l.start + 2⟩, l.opening) :: (place (l.start + 2) l.inside ++
        (⟨l.start + 2 + (textOf l.inside).byteLength, l.bytes.stop⟩, l.closing) ::
          place l.bytes.stop behind)) := by
  have hstart : l.start = 0 + (textOf pre).byteLength := h.stands.start
  have hopening : l.opening.text.byteLength = 2 := by rw [h.written.opening]; rfl
  have hclosing : l.closing.text.byteLength = 2 := by rw [h.written.closing]; rfl
  have hstop : l.bytes.stop = l.start + 2 + (textOf l.inside).byteLength + 2 := by
    simp only [OuterLink.bytes, OuterLink.text_eq_append, Text.byteLength_append, hopening,
      hclosing]
    omega
  refine ⟨scanFrom e z, ?_⟩
  rw [stepsFrom_zero, h.steps_eq, place_append, ← hstart, OuterLink.steps, List.append_assoc,
    List.cons_append, place, hopening, place_append, List.singleton_append, place, hclosing, hstop]

/-- Of all the steps only those between the ends of a link can be its separators. -/
theorem bars_eq (h : Placed t x y z pre l before d e) (template : Nat) :
    (ofText t).bars l.bytes template =
      ((place (l.start + 2) l.inside).filter (separates template ·.2)).map (·.1) := by
  obtain ⟨behind, hsteps⟩ := h.stepsFrom_eq
  have hlt : ∀ p ∈ (ofText t).stepsFrom 0, p.1.start < p.1.stop :=
    fun p => start_lt_of_mem_stepsFrom
  simp only [hsteps, List.forall_mem_append, List.forall_mem_cons] at hlt
  obtain ⟨hahead, -, -, hclosing, hbehind⟩ := hlt
  have hstart : l.bytes.start = 0 + (textOf pre).byteLength := h.stands.start
  have ho : separates template l.opening = false := by
    simp [separates, (opens_iff.mp h.stands.opening).1]
  have hc : separates template l.closing = false := by
    simp [separates, (closes_iff.mp h.stands.closing).1]
  let within (p : ByteRange × Step) : Bool :=
    l.bytes.start ≤ p.1.start && p.1.stop ≤ l.bytes.stop && separates template p.2
  have hpre : (place 0 pre).filter within = [] := by
    refine List.filter_eq_nil_iff.mpr fun p hp => ?_
    have hstop := (bounds_of_mem_place hp).2
    have hne := hahead p hp
    simp only [within, Bool.and_eq_true, decide_eq_true_eq]
    omega
  have hpost : (place l.bytes.stop behind).filter within = [] := by
    refine List.filter_eq_nil_iff.mpr fun p hp => ?_
    have hstart := (bounds_of_mem_place hp).1
    have hne := hbehind p hp
    simp only [within, Bool.and_eq_true, decide_eq_true_eq]
    omega
  have hinside : (place (l.start + 2) l.inside).filter within =
      (place (l.start + 2) l.inside).filter (separates template ·.2) := by
    refine List.filter_congr fun p hp => ?_
    obtain ⟨hle, hle'⟩ := bounds_of_mem_place hp
    have hs : l.bytes.start ≤ p.1.start := Nat.le_trans (Nat.le_add_right l.start 2) hle
    have hs' : p.1.stop ≤ l.bytes.stop := hle'.trans hclosing.le
    simp [within, hs, hs']
  have hall : (ofText t).bars l.bytes template =
      (((ofText t).stepsFrom 0).filter within).map (·.1) := rfl
  rw [hall, hsteps, List.filter_append, hpre, List.nil_append,
    List.filter_cons_of_neg (by simp [within, ho]), List.filter_append, hinside,
    List.filter_cons_of_neg (by simp [within, hc]), hpost, List.append_nil]

theorem fills (h : Placed t x y z pre l before d e) :
    List.Forall₂ t.Fills
      (ByteRange.stretches (l.bytes.start + 2) (l.bytes.start + 2 + (textOf l.inside).byteLength)
        ((ofText t).bars l.bytes l.opening.depths.template)) (l.title :: l.params) := by
  have ht : t = (Cell.chars x ++ l.opening.text) ++
      ([] ++ (textOf l.inside ++ (l.closing.text ++ Cell.chars z))) := by
    rw [h.chars_eq, ← h.text_eq, OuterLink.text_eq_append]
    simp
  have hopening : (Cell.chars x ++ l.opening.text).byteLength = l.bytes.start + 2 := by
    rw [OuterLink.bytes, ← h.byteLength_opening, Cell.chars_append, Step.text]
  have hinside := fills_stretches (separates l.opening.depths.template) ht
  rw [List.append_nil, List.nil_append, List.nil_append, Text.byteLength_append _ (textOf _),
    hopening] at hinside
  rw [h.bars_eq]
  exact hinside

theorem splits {aliases : List Text} {m : MediaLink} (h : Placed t x y z pre l before d e)
    (ha : ∀ a ∈ aliases, Clean a) (hm : l.media? (ofText t) aliases = some m) :
    (ofText t).Splits m l.opening l.closing (l.start + 2 + (textOf l.inside).byteLength) := by
  have hbytes : m.bytes = l.bytes := bytes_of_media? hm
  have hfile : l.title = m.aliasUsed ++ [':'] ++ m.title := by
    rw [title_eq_file ha h.written hm, MediaLink.file, List.append_assoc, List.singleton_append]
  have hparams : l.params = m.params := by
    obtain ⟨a, -, rfl⟩ := Option.map_eq_some_iff.mp hm
    rfl
  obtain ⟨behind, hsteps⟩ := h.stepsFrom_eq
  have hfills := h.fills
  rw [hfile, hparams, ← hbytes] at hfills
  refine ⟨⟨?_, h.stands.opening⟩, ⟨?_, h.stands.closing⟩, ?_, ?_⟩
  · rw [hsteps, hbytes]
    simp [OuterLink.bytes]
  · rw [hsteps, hbytes]
    simp
  · rw [text_ofText, hbytes, h.slice_eq, h.text_eq_render, render, hfile, hparams]
    simp only [List.append_assoc]
  · rw [show l.start = m.bytes.start from (congrArg ByteRange.start hbytes).symm]
    exact map_slice_of_fills (fills_stretches_drop hfills)

end Placed

/-- Every link is the text of its parts: none of them is taken backwards, and the pipes between them
are the separators of the link. -/
theorem mediaLinks_splits {aliases : List Text} (ha : ∀ a ∈ aliases, Clean a) (t : Text) :
    ∃ links, (ofText t).mediaLinks aliases = .ok links ∧
      ∀ m ∈ links, ∃ o c last, (ofText t).Splits m o c last := by
  refine ⟨_, mediaLinks_eq ha t, fun m hm => ?_⟩
  obtain ⟨l, hl, hm⟩ := List.mem_filterMap.mp hm
  obtain ⟨x, y, z, pre, before, d, e, hp⟩ := exists_placed_of_mem hl
  exact ⟨_, _, _, hp.splits ha hm⟩

/-- The first alias opens a template, which is closed behind a `|` in the title, and the second one
opens a comment that ends there. -/
def crossedAliases : Text :=
  "[[{{x:a|b}}|c]] [[<!--x:y|-->|d]]".toList

theorem mediaLinks_splits_crossedAliases :
    (∃ o c last, (ofText crossedAliases).Splits
      ⟨"\x7b\x7bx".toList, "a|b\x7d\x7d".toList, ["c".toList], ⟨0, 15⟩, ⟨0, 15⟩⟩ o c last) ∧
    ∃ o c last, (ofText crossedAliases).Splits
      ⟨"<!--x".toList, "y|-->".toList, ["d".toList], ⟨16, 33⟩, ⟨16, 17⟩⟩ o c last := by
  have ha : ∀ a ∈ ["\x7b\x7bx".toList, "<!--x".toList], Clean a := by decide
  obtain ⟨links, hlinks, hall⟩ := mediaLinks_splits ha crossedAliases
  have hboth : (ofText crossedAliases).mediaLinks ["\x7b\x7bx".toList, "<!--x".toList] = .ok
      [⟨"\x7b\x7bx".toList, "a|b\x7d\x7d".toList, ["c".toList], ⟨0, 15⟩, ⟨0, 15⟩⟩,
        ⟨"<!--x".toList, "y|-->".toList, ["d".toList], ⟨16, 33⟩, ⟨16, 17⟩⟩] := by
    decide +kernel
  obtain rfl := Except.ok.inj (hlinks.symm.trans hboth)
  exact ⟨hall _ List.mem_cons_self, hall _ (List.mem_cons_of_mem _ List.mem_cons_self)⟩

end Document

end Wikitext
