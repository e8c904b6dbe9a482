import Mathlib.Data.List.Forall2
import Wikitext.Proofs.Tree

/-! The media links of what a tree is written as. A link that stands in no other link is outermost,
however many templates it stands in, and the separators at its own depths part its title and its
parameters. -/

namespace Wikitext

open Step OuterLink

/-- A link of a tree, with the byte at which it begins. -/
structure LinkAt where
  start : Nat
  first : Tree
  rest : List Tree

mutual

/-- The links of a node that begins at the byte `b` which are inside no other link. -/
def Node.outermost (b : Nat) : Node → List LinkAt
  | .text _ | .comment _ => []
  | .template parts => partsOutermost (b + 2) parts
  | .link first rest => [⟨b, first, rest⟩]

def treeOutermost (b : Nat) : List Node → List LinkAt
  | [] => []
  | n :: t => n.outermost b ++ treeOutermost (b + n.print.byteLength) t

def partsOutermost (b : Nat) : List (List Node) → List LinkAt
  | [] => []
  | t :: ts => treeOutermost b t ++ partsOutermost (b + (Tree.print t).byteLength + 1) ts

end

namespace LinkAt

def bytes (l : LinkAt) : ByteRange :=
  ⟨l.start, l.start + (Node.link l.first l.rest).print.byteLength⟩

/-- The first alias that is not empty and with which, and a colon, the first part begins; a cluster
boundary follows the colon. -/
def alias? (t : Tree) (aliases : List Text) (l : LinkAt) : Option Text :=
  aliases.find? fun a => a ≠ [] && (a ++ [':']).isPrefixOf (Tree.print l.first) &&
    (Document.ofText t.print).isBoundary (l.start + 2 + (a ++ [':']).byteLength)

/-- The media link that a link of the tree `t` is, if it begins with one of the aliases. -/
def media? (t : Tree) (aliases : List Text) (l : LinkAt) : Option MediaLink :=
  (l.alias? t aliases).map fun a =>
    ⟨a, (Tree.print l.first).drop (a.length + 1), l.rest.map Tree.print, l.bytes,
      (Document.ofText t.print).spanOf l.bytes⟩

end LinkAt

mutual

theorem Node.Steps.textOf_eq {d : Depths} : {n : Node} → {ss : List Step} → n.Steps d ss →
    textOf ss = n.print
  | .text t, ss, h => by
    simpa [Node.print, Node.pieces, Piece.text] using h.1
  | .comment body, ss, h => by
    obtain ⟨x, rfl, hx⟩ := h
    simpa [Step.text] using hx
  | .template parts, ss, h => by
    obtain ⟨x, y, inside, rfl, hx, hy, hi⟩ := h
    simp [Node.print, Node.pieces, Step.text, Piece.text, hx, hy, textOf_eq_of_parts hi]
  | .link first rest, ss, h => by
    obtain ⟨x, y, u, v, rfl, hx, hy, hu, hv⟩ := h
    simp [Node.print, Node.pieces, Step.text, Piece.text, hx, hy, textOf_eq_of_tree hu,
      textOf_eq_of_rest hv]

theorem textOf_eq_of_tree {d : Depths} : {t : List Node} → {ss : List Step} → TreeSteps d t ss →
    textOf ss = Piece.textOf (treePieces t)
  | [], ss, h => by
    obtain rfl := h
    rfl
  | n :: t, ss, h => by
    obtain ⟨u, v, rfl, hu, hv⟩ := h
    rw [textOf_append, hu.textOf_eq, textOf_eq_of_tree hv, treePieces, Piece.textOf_append]
    rfl

theorem textOf_eq_of_rest {d : Depths} : {ts : List (List Node)} → {ss : List Step} →
    RestSteps d ts ss → textOf ss = Piece.textOf (restPieces ts)
  | [], ss, h => by
    obtain rfl := h
    rfl
  | t :: ts, ss, h => by
    obtain ⟨x, u, v, rfl, hx, hu, hv⟩ := h
    simp [restPieces, Step.text, Piece.text, hx, textOf_eq_of_tree hu, textOf_eq_of_rest hv]

theorem textOf_eq_of_parts {d : Depths} : {ts : List (List Node)} → {ss : List Step} →
    PartsSteps d ts ss → textOf ss = Piece.textOf (partsPieces ts)
  | [], ss, h => by
    obtain rfl := h
    rfl
  | t :: ts, ss, h => by
    obtain ⟨u, v, rfl, hu, hv⟩ := h
    rw [textOf_append, textOf_eq_of_tree hu, textOf_eq_of_rest hv, partsPieces,
      Piece.textOf_append]

end

/-- A step that leaves at least the depths `d` open. -/
def Step.Within (d : Depths) (s : Step) : Prop :=
  d.template ≤ s.depths.template ∧ d.link ≤ s.depths.link

/-- A step of a tree that stands at the depths `d`: its separators belong to what the tree opens. -/
def Step.Belongs (d : Depths) (s : Step) : Prop :=
  s.Within d ∧ (s.kind = .pipe → s.depths ≠ d)

mutual

theorem Node.Steps.belongs {d : Depths} : {n : Node} → {ss : List Step} → n.Steps d ss →
    ∀ s ∈ ss, s.Belongs d
  | .text t, ss, h => by
    intro s hs
    obtain ⟨hk, rfl⟩ := h.2 s hs
    refine ⟨⟨le_rfl, le_rfl⟩, fun hp => ?_⟩
    rcases hk with hk | hk <;> simp [hk] at hp
  | .comment body, ss, h => by
    obtain ⟨x, rfl, -⟩ := h
    simp [Belongs, Within]
  | .template parts, ss, h => by
    obtain ⟨x, y, inside, rfl, -, -, hi⟩ := h
    intro s hs
    simp only [List.mem_cons, List.mem_append, List.not_mem_nil, or_false] at hs
    rcases hs with rfl | hs | rfl
    · simp [Belongs, Within]
    · obtain ⟨ht, hl⟩ := within_of_parts hi s hs
      simp only at ht hl
      refine ⟨⟨by omega, hl⟩, fun _ he => ?_⟩
      rw [he] at ht
      omega
    · simp [Belongs, Within]
  | .link first rest, ss, h => by
    obtain ⟨x, y, u, v, rfl, -, -, hu, hv⟩ := h
    intro s hs
    simp only [List.mem_cons, List.mem_append, List.not_mem_nil, or_false] at hs
    rcases hs with rfl | (hs | hs) | rfl
    · simp [Belongs, Within]
    · obtain ⟨ht, hl⟩ := (belongs_of_tree hu s hs).1
      simp only at ht hl
      refine ⟨⟨ht, by omega⟩, fun _ he => ?_⟩
      rw [he] at hl
      omega
    · obtain ⟨ht, hl⟩ := within_of_rest hv s hs
      simp only at ht hl
      refine ⟨⟨ht, by omega⟩, fun _ he => ?_⟩
      rw [he] at hl
      omega
    · simp [Belongs, Within]

theorem belongs_of_tree {d : Depths} : {t : List Node} → {ss : List Step} → TreeSteps d t ss →
    ∀ s ∈ ss, s.Belongs d
  | [], ss, h => by
    obtain rfl := h
    simp
  | n :: t, ss, h => by
    obtain ⟨u, v, rfl, hu, hv⟩ := h
    intro s hs
    rcases List.mem_append.mp hs with hs | hs
    · exact hu.belongs s hs
    · exact belongs_of_tree hv s hs

theorem within_of_rest {d : Depths} : {ts : List (List Node)} → {ss : List Step} →
    RestSteps d ts ss → ∀ s ∈ ss, s.Within d
  | [], ss, h => by
    obtain rfl := h
    simp
  | t :: ts, ss, h => by
    obtain ⟨x, u, v, rfl, -, hu, hv⟩ := h
    intro s hs
    rcases List.mem_cons.mp hs with rfl | hs
    · exact ⟨le_rfl, le_rfl⟩
    · rcases List.mem_append.mp hs with hs | hs
      · exact (belongs_of_tree hu s hs).1
      · exact within_of_rest hv s hs

theorem within_of_parts {d : Depths} : {ts : List (List Node)} → {ss : List Step} →
    PartsSteps d ts ss → ∀ s ∈ ss, s.Within d
  | [], ss, h => by
    obtain rfl := h
    simp
  | t :: ts, ss, h => by
    obtain ⟨u, v, rfl, hu, hv⟩ := h
    intro s hs
    rcases List.mem_append.mp hs with hs | hs
    · exact (belongs_of_tree hu s hs).1
    · exact within_of_rest hv s hs

end

theorem Step.Belongs.not_separates {template : Nat} {s : Step} (h : s.Belongs ⟨template, 1⟩) :
    separates template s = false := by
  rw [Bool.eq_false_iff]
  intro hs
  obtain ⟨hk, hl, ht⟩ := separates_iff.mp hs
  exact h.2 hk (by rw [← hl, ← ht])

theorem segments_of_rest {template : Nat} {u v : List Step} {ts : List (List Node)}
    (hu : ∀ s ∈ u, s.Belongs ⟨template, 1⟩) (hv : RestSteps ⟨template, 1⟩ ts v) :
    (segments (separates template) (u ++ v)).map textOf = textOf u :: ts.map Tree.print := by
  induction ts generalizing u v with
  | nil =>
    obtain rfl := hv
    rw [List.append_nil, segments_of_keep fun s hs => (hu s hs).not_separates]
    rfl
  | cons t ts ih =>
    obtain ⟨x, w, r, rfl, -, hw, hr⟩ := hv
    rw [segments_append_cut (by simp [separates]),
      segments_of_keep fun s hs => (hu s hs).not_separates, List.map_append,
      ih (belongs_of_tree hw) hr, textOf_eq_of_tree hw]
    rfl

/-- The outermost link `l` of a document is the link `a` of the tree. -/
structure Depicts (l : OuterLink) (a : LinkAt) : Prop where
  start : l.start = a.start
  text : l.text = (Node.link a.first a.rest).print
  title : l.title = Tree.print a.first
  params : l.params = a.rest.map Tree.print

mutual

theorem Node.Steps.exists_holds {d : Depths} (hd : d.link = 0) (b : Nat) : {n : Node} →
    {ss : List Step} → n.Steps d ss →
    ∃ ls, Holds b ss ls ∧ List.Forall₂ Depicts ls (n.outermost b)
  | .text t, ss, h => by
    refine ⟨[], holds_of_not_opens fun s hs => ?_, .nil⟩
    rcases (h.2 s hs).1 with hk | hk <;> simp [opens, hk]
  | .comment body, ss, h => by
    obtain ⟨x, rfl, -⟩ := h
    exact ⟨[], .other rfl .nil, .nil⟩
  | .template parts, ss, h => by
    obtain ⟨x, y, inside, rfl, hx, -, hi⟩ := h
    have hlen : b + (Cell.chars x).byteLength = b + 2 := by rw [hx]; rfl
    obtain ⟨ls, hls, hdep⟩ := exists_holds_parts (d := ⟨d.template + 1, d.link⟩) hd (b + 2) hi
    have hclose : Holds (b + 2 + (textOf inside).byteLength) [⟨.templateClose, y, d⟩] [] :=
      .other rfl .nil
    have hall := hls.append hclose
    rw [List.append_nil] at hall
    refine ⟨ls, .other rfl ?_, hdep⟩
    rw [Step.text, hlen]
    exact hall
  | .link first rest, ss, h => by
    have htext := h.textOf_eq
    obtain ⟨x, y, u, v, rfl, -, -, hu, hv⟩ := h
    obtain ⟨template, link⟩ := d
    obtain rfl : link = 0 := hd
    have hseg := segments_of_rest (belongs_of_tree hu) hv
    have hinside : ∀ s ∈ u ++ v, closes s = false := by
      intro s hs
      have hw : s.Within ⟨template, 1⟩ := by
        rcases List.mem_append.mp hs with hs | hs
        · exact (belongs_of_tree hu s hs).1
        · exact within_of_rest hv s hs
      have hl : 1 ≤ s.depths.link := hw.2
      simp [closes, Nat.pos_iff_ne_zero.mp hl]
    refine ⟨_, .link (by simp [opens]) hinside (by simp [closes]) .nil, .cons ?_ .nil⟩
    rw [textOf_eq_of_tree hu] at hseg
    obtain ⟨ht, hp⟩ := List.cons.inj hseg
    exact ⟨rfl, by simpa [OuterLink.text, steps, textOf] using htext, ht, hp⟩

theorem exists_holds_tree {d : Depths} (hd : d.link = 0) (b : Nat) : {t : List Node} →
    {ss : List Step} → TreeSteps d t ss →
    ∃ ls, Holds b ss ls ∧ List.Forall₂ Depicts ls (treeOutermost b t)
  | [], ss, h => by
    obtain rfl := h
    exact ⟨[], .nil, .nil⟩
  | n :: t, ss, h => by
    obtain ⟨u, v, rfl, hu, hv⟩ := h
    obtain ⟨ls, hls, hdep⟩ := hu.exists_holds hd b
    obtain ⟨ls', hls', hdep'⟩ := exists_holds_tree hd (b + n.print.byteLength) hv
    rw [← hu.textOf_eq] at hls'
    exact ⟨ls ++ ls', hls.append hls', List.rel_append hdep hdep'⟩

theorem exists_holds_rest {d : Depths} (hd : d.link = 0) (b : Nat) : {ts : List (List Node)} →
    {ss : List Step} → RestSteps d ts ss →
    ∃ ls, Holds b ss ls ∧ List.Forall₂ Depicts ls (partsOutermost (b + 1) ts)
  | [], ss, h => by
    obtain rfl := h
    exact ⟨[], .nil, .nil⟩
  | t :: ts, ss, h => by
    obtain ⟨x, u, v, rfl, hx, hu, hv⟩ := h
    have hlen : b + (Cell.chars x).byteLength = b + 1 := by rw [hx]; rfl
    obtain ⟨ls, hls, hdep⟩ := exists_holds_tree hd (b + 1) hu
    obtain ⟨ls', hls', hdep'⟩ := exists_holds_rest hd (b + 1 + (Tree.print t).byteLength) hv
    rw [Tree.print, ← textOf_eq_of_tree hu] at hls'
    refine ⟨ls ++ ls', .other rfl ?_, List.rel_append hdep hdep'⟩
    rw [Step.text, hlen]
    exact hls.append hls'

theorem exists_holds_parts {d : Depths} (hd : d.link = 0) (b : Nat) : {ts : List (List Node)} →
    {ss : List Step} → PartsSteps d ts ss →
    ∃ ls, Holds b ss ls ∧ List.Forall₂ Depicts ls (partsOutermost b ts)
  | [], ss, h => by
    obtain rfl := h
    exact ⟨[], .nil, .nil⟩
  | t :: ts, ss, h => by
    obtain ⟨u, v, rfl, hu, hv⟩ := h
    obtain ⟨ls, hls, hdep⟩ := exists_holds_tree hd b hu
    obtain ⟨ls', hls', hdep'⟩ := exists_holds_rest hd (b + (Tree.print t).byteLength) hv
    rw [Tree.print, ← textOf_eq_of_tree hu] at hls'
    exact ⟨ls ++ ls', hls.append hls', List.rel_append hdep hdep'⟩

end

theorem prefix_append_cons_iff {α : Type} {p t r : List α} {c : α} (hc : c ∉ p) :
    p <+: t ++ c :: r ↔ p <+: t := by
  constructor
  · intro h
    have ht : t ++ [c] <+: t ++ c :: r := by simp
    rcases List.prefix_or_prefix_of_prefix h ht with hp | hp
    · rcases List.prefix_concat_iff.mp hp with rfl | hp
      · simp at hc
      · exact hp
    · exact absurd (hp.subset (by simp)) hc
  · exact fun h => h.trans (List.prefix_append _ _)

namespace Text

theorem Plain.clean {a : Text} (ha : a.Plain) : Clean a := by
  refine ⟨fun h => ha _ h (by decide), fun h => ?_⟩
  exact ha ']' (h.subset (by decide)) (by decide)

theorem Plain.isPrefixOf_append {a t r : Text} {c : Char} (ha : a.Plain) (hc : c ∈ brackets) :
    (a ++ [':']).isPrefixOf (t ++ c :: r) = (a ++ [':']).isPrefixOf t := by
  have hno : c ∉ a ++ [':'] := by
    intro h
    rcases List.mem_append.mp h with h | h
    · exact ha c h hc
    · obtain rfl : c = ':' := by simpa using h
      revert hc
      decide
  rw [Bool.eq_iff_iff, List.isPrefixOf_iff_prefix, List.isPrefixOf_iff_prefix,
    prefix_append_cons_iff hno]

end Text

theorem Depicts.media?_eq {t : Tree} {x y z : List Cell} {pre : List Step} {l : OuterLink}
    {before : List OuterLink} {d e : Depths} {a : LinkAt} (h : Depicts l a)
    (hp : Document.Placed t.print x y z pre l before d e) {aliases : List Text}
    (ha : ∀ a ∈ aliases, a.Plain) :
    l.media? (Document.ofText t.print) aliases = a.media? t aliases := by
  have hbytes : l.bytes = a.bytes := by
    rw [OuterLink.bytes, LinkAt.bytes, h.start, h.text]
  have htitle : ∃ c r, c ∈ brackets ∧
      Cell.chars (l.inside.flatMap (·.cells) ++ l.closing.cells ++ z) =
        Tree.print a.first ++ c :: r := by
    rw [List.append_assoc, Cell.chars_append]
    rcases hp.written.title_prefix with ⟨w, r, hw, hchars⟩ | hchars
    · refine ⟨'|', Cell.chars r ++ Cell.chars (l.closing.cells ++ z), by decide, ?_⟩
      rw [hw, Cell.chars_append, hchars, h.title]
      simp
    · refine ⟨']', ']' :: Cell.chars z, by decide, ?_⟩
      rw [hchars, h.title, Cell.chars_append,
        show Cell.chars l.closing.cells = _ from hp.written.closing]
      rfl
  obtain ⟨c, r, hc, htitle⟩ := htitle
  have halias : l.alias? aliases = a.alias? t aliases := by
    rw [← hp.written.aliasAt?_append (fun a hmem => (ha a hmem).clean) z,
      MediaLink.aliasAt?_eq hp.cells_opening, htitle, hp.byteLength_opening, h.start,
      LinkAt.alias?]
    apply List.find?_congr
    intro b hb
    rw [(ha b hb).isPrefixOf_append hc]
  rw [OuterLink.media?, LinkAt.media?, halias, h.title, h.params, hbytes]

theorem steps_print {t : Tree} (hw : WellFormedTree t) (hb : t.MarkersOnBoundaries) :
    TreeSteps .zero t (Document.ofText t.print).steps := by
  obtain ⟨ss, hs, hts⟩ := exists_scans_tree (d := .zero) (z := []) t hw
    (Cell.chars_ofText t.print) (by rw [List.append_nil]; exact hb.onBoundaries)
    (by simp [Lexeme.Stops])
  have hsteps : (Document.ofText t.print).steps = ss := hs.scanFrom_eq_of_end
  rwa [hsteps]

theorem outerLinks_print {t : Tree} (hw : WellFormedTree t) (hb : t.MarkersOnBoundaries) :
    List.Forall₂ Depicts (Document.ofText t.print).outerLinks (treeOutermost 0 t) := by
  obtain ⟨ls, hls, hdep⟩ := exists_holds_tree rfl 0 (steps_print hw hb)
  rw [Document.outerLinks, hls.ofSteps_eq]
  exact hdep

/-- Reading what a tree is written as gives the media links of the tree. -/
theorem mediaLinks_print {t : Tree} {aliases : List Text} (hw : WellFormedTree t)
    (hb : t.MarkersOnBoundaries) (ha : ∀ a ∈ aliases, a.Plain) :
    (Document.ofText t.print).mediaLinks aliases =
      .ok ((treeOutermost 0 t).filterMap (LinkAt.media? t aliases)) := by
  rw [Document.mediaLinks_eq fun a hmem => (ha a hmem).clean]
  have hdep := outerLinks_print hw hb
  have hall : ∀ l ∈ (Document.ofText t.print).outerLinks, ∀ a, Depicts l a →
      l.media? (Document.ofText t.print) aliases = a.media? t aliases := by
    intro l hl a h
    obtain ⟨_, _, _, _, _, _, _, hp⟩ := Document.exists_placed_of_mem hl
    exact h.media?_eq hp ha
  apply congrArg Except.ok
  generalize (Document.ofText t.print).outerLinks = ls at hdep hall
  generalize treeOutermost 0 t = as at hdep ⊢
  induction hdep with
  | nil => rfl
  | @cons l a ls as h _ ih =>
    rw [List.filterMap_cons, List.filterMap_cons, hall l List.mem_cons_self a h,
      ih fun l hl => hall l (List.mem_cons_of_mem _ hl)]

theorem Tree.markersOnBoundaries_of_other {t : Tree}
    (h : ∀ c ∈ t.print, BreakClass.of c = .other) : t.MarkersOnBoundaries := by
  have hcut : ∀ s r : Text, t.print = s ++ r →
      (Document.ofText t.print).isBoundary s.byteLength = true := by
    intro s r he
    rw [he, Document.isBoundary_append]
    rcases List.eq_nil_or_concat s with rfl | ⟨s, c, rfl⟩
    · exact Text.parted_nil_left r
    · cases r with
      | nil => exact Text.parted_nil_right _
      | cons c' r =>
        rw [he] at h
        rw [List.concat_eq_append]
        exact Text.parted_other_other (h c (by simp)) (h c' (by simp))
  intro before kind behind he
  have hp : t.print = Piece.textOf before ++ (kind.literal ++ Piece.textOf behind) := by
    rw [Tree.print, he, Piece.textOf_append]
    rfl
  refine ⟨hcut _ _ hp, hcut _ (Piece.textOf behind) ?_⟩
  rw [hp, ← List.append_assoc]
  simp [Piece.text]

/-- An image in a template, with a link in its caption, after a comment that looks like one. -/
def imageInTemplate : Tree :=
  [.comment "[File:A|b]".toList,
    .template [[.text "Box".toList], [.text "image=".toList,
      .link [.text "File:A".toList] [[.text "left".toList],
        [.text "a ".toList, .link [.text "File:B".toList] [], .template []]]]],
    .link [.text "Town".toList] []]

theorem mediaLinks_print_imageInTemplate :
    (Document.ofText imageInTemplate.print).mediaLinks ["File".toList] =
      .ok [⟨"File".toList, "A".toList, ["left".toList, "a [[File:B]]\x7b\x7b\x7d\x7d".toList],
        ⟨29, 61⟩, ⟨29, 32⟩⟩] := by
  have ha : ∀ a ∈ ["File".toList], Text.Plain a := by decide
  have h := mediaLinks_print (t := imageInTemplate)
    (by decide +kernel) (Tree.markersOnBoundaries_of_other (by decide +kernel)) ha
  exact h.trans (by decide +kernel)

end Wikitext
