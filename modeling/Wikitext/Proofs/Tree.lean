import Wikitext.Proofs.MediaLinks

/-! Well-formed wikitext as a tree of text, comments, templates and links. Reading what a tree is
written as takes the tree's own steps: every node begins and ends at the depths at which it
stands. -/

namespace Wikitext

inductive Node where
  | text (t : Text)
  | comment (body : Text)
  /-- The parts of a template, which separators keep apart. -/
  | template (parts : List (List Node))
  /-- A link has a first part, which names what it links to. -/
  | link (first : List Node) (rest : List (List Node))

abbrev Tree := List Node

/-- A stretch of what a tree is written as. -/
inductive Piece where
  | marker (kind : LexemeKind)
  | plain (t : Text)

def Piece.text : Piece → Text
  | marker kind => kind.literal
  | plain t => t

def Piece.textOf (ps : List Piece) : Text :=
  ps.flatMap text

mutual

def Node.pieces : Node → List Piece
  | .text t => [.plain t]
  | .comment body => [.marker .commentOpen, .plain body, .marker .commentClose]
  | .template parts => .marker .templateOpen :: (partsPieces parts ++ [.marker .templateClose])
  | .link first rest =>
    .marker .linkOpen :: (treePieces first ++ (restPieces rest ++ [.marker .linkClose]))

def treePieces : List Node → List Piece
  | [] => []
  | n :: t => n.pieces ++ treePieces t

def restPieces : List (List Node) → List Piece
  | [] => []
  | t :: ts => .marker .pipe :: (treePieces t ++ restPieces ts)

def partsPieces : List (List Node) → List Piece
  | [] => []
  | t :: ts => treePieces t ++ restPieces ts

end

def Node.print (n : Node) : Text :=
  Piece.textOf n.pieces

def Tree.print (t : Tree) : Text :=
  Piece.textOf (treePieces t)

def Node.isText : Node → Bool
  | .text _ => true
  | _ => false

mutual

/-- Text is not empty and holds no bracket and no beginning of a comment, a comment does not end
before its end, and text does not stand beside text. -/
def Node.WellFormed : Node → Prop
  | .text t => t ≠ [] ∧ t.Plain ∧ ¬ LexemeKind.commentOpen.literal <:+: t
  | .comment body => '<' ∉ body ∧ ¬ LexemeKind.commentClose.literal <:+: body
  | .template parts => WellFormedParts parts
  | .link first rest => WellFormedTree first ∧ WellFormedParts rest

def WellFormedTree : List Node → Prop
  | [] => True
  | n :: t => n.WellFormed ∧ WellFormedTree t ∧
      (n.isText = true → ∀ m ∈ t.head?, m.isText = false)

def WellFormedParts : List (List Node) → Prop
  | [] => True
  | t :: ts => WellFormedTree t ∧ WellFormedParts ts

end

mutual

instance Node.decidableWellFormed : (n : Node) → Decidable n.WellFormed
  | .text t =>
    inferInstanceAs (Decidable (t ≠ [] ∧ t.Plain ∧ ¬ LexemeKind.commentOpen.literal <:+: t))
  | .comment body =>
    inferInstanceAs (Decidable ('<' ∉ body ∧ ¬ LexemeKind.commentClose.literal <:+: body))
  | .template parts => decidableWellFormedParts parts
  | .link first rest =>
    @instDecidableAnd _ _ (decidableWellFormedTree first) (decidableWellFormedParts rest)

instance decidableWellFormedTree : (t : List Node) → Decidable (WellFormedTree t)
  | [] => .isTrue trivial
  | n :: t =>
    have := n.decidableWellFormed
    have := decidableWellFormedTree t
    inferInstanceAs (Decidable (n.WellFormed ∧ WellFormedTree t ∧
      (n.isText = true → ∀ m ∈ t.head?, m.isText = false)))

instance decidableWellFormedParts : (ts : List (List Node)) → Decidable (WellFormedParts ts)
  | [] => .isTrue trivial
  | t :: ts => @instDecidableAnd _ _ (decidableWellFormedTree t) (decidableWellFormedParts ts)

end

/-- Every marker of what a tree is written as begins and ends on a cluster boundary. -/
def Tree.MarkersOnBoundaries (t : Tree) : Prop :=
  ∀ before kind behind, treePieces t = before ++ .marker kind :: behind →
    (Document.ofText t.print).isBoundary (Piece.textOf before).byteLength = true ∧
    (Document.ofText t.print).isBoundary
      (Piece.textOf (before ++ [.marker kind])).byteLength = true

open Step

mutual

/-- `n.Steps d ss`: the steps `ss` are those of the node `n`, from the depths `d` on and back to
them. -/
def Node.Steps (d : Depths) : Node → List Step → Prop
  | .text t, ss => textOf ss = t ∧ ∀ s ∈ ss, (s.kind = .text ∨ s.kind = .newline) ∧ s.depths = d
  | .comment body, ss => ∃ x, ss = [⟨.comment, x, d⟩] ∧ Cell.chars x = (Node.comment body).print
  | .template parts, ss => ∃ x y inside,
      ss = ⟨.templateOpen, x, ⟨d.template + 1, d.link⟩⟩ :: (inside ++ [⟨.templateClose, y, d⟩]) ∧
      Cell.chars x = LexemeKind.templateOpen.literal ∧
      Cell.chars y = LexemeKind.templateClose.literal ∧
      PartsSteps ⟨d.template + 1, d.link⟩ parts inside
  | .link first rest, ss => ∃ x y u v,
      ss = ⟨.linkOpen, x, ⟨d.template, d.link + 1⟩⟩ :: ((u ++ v) ++ [⟨.linkClose, y, d⟩]) ∧
      Cell.chars x = LexemeKind.linkOpen.literal ∧
      Cell.chars y = LexemeKind.linkClose.literal ∧
      TreeSteps ⟨d.template, d.link + 1⟩ first u ∧ RestSteps ⟨d.template, d.link + 1⟩ rest v

def TreeSteps (d : Depths) : List Node → List Step → Prop
  | [], ss => ss = []
  | n :: t, ss => ∃ u v, ss = u ++ v ∧ n.Steps d u ∧ TreeSteps d t v

def RestSteps (d : Depths) : List (List Node) → List Step → Prop
  | [], ss => ss = []
  | t :: ts, ss => ∃ x u v, ss = ⟨.pipe, x, d⟩ :: (u ++ v) ∧
      Cell.chars x = LexemeKind.pipe.literal ∧ TreeSteps d t u ∧ RestSteps d ts v

def PartsSteps (d : Depths) : List (List Node) → List Step → Prop
  | [], ss => ss = []
  | t :: ts, ss => ∃ u v, ss = u ++ v ∧ TreeSteps d t u ∧ RestSteps d ts v

end

namespace Piece

@[simp]
theorem textOf_nil : textOf [] = [] := rfl

@[simp]
theorem textOf_cons (p : Piece) (ps : List Piece) : textOf (p :: ps) = p.text ++ textOf ps := rfl

@[simp]
theorem textOf_append (ps qs : List Piece) : textOf (ps ++ qs) = textOf ps ++ textOf qs :=
  List.flatMap_append

/-- Every marker among pieces that some cells begin with lies between boundaries. -/
def OnBoundaries : List Piece → List Cell → Prop
  | [], _ => True
  | .plain t :: ps, cells => OnBoundaries ps (cells.drop t.length)
  | .marker k :: ps, cells => Cell.atBoundary cells = true ∧
      Cell.atBoundary (cells.drop k.literal.length) = true ∧
      OnBoundaries ps (cells.drop k.literal.length)

theorem drop_length_of_chars {x z : List Cell} {t : Text} (h : Cell.chars x = t) :
    (x ++ z).drop t.length = z := by
  rw [← h, Cell.length_chars, List.drop_left]

theorem onBoundaries_plain {x z : List Cell} {t : Text} {ps : List Piece}
    (h : Cell.chars x = t) : OnBoundaries (.plain t :: ps) (x ++ z) ↔ OnBoundaries ps z := by
  rw [OnBoundaries, drop_length_of_chars h]

theorem onBoundaries_marker {x z : List Cell} {k : LexemeKind} {ps : List Piece}
    (h : Cell.chars x = k.literal) : OnBoundaries (.marker k :: ps) (x ++ z) ↔
      Cell.atBoundary (x ++ z) = true ∧ Cell.atBoundary z = true ∧ OnBoundaries ps z := by
  rw [OnBoundaries, drop_length_of_chars h]

theorem onBoundaries_append {x z : List Cell} {ps qs : List Piece}
    (h : Cell.chars x = textOf ps) :
    OnBoundaries (ps ++ qs) (x ++ z) ↔ OnBoundaries ps (x ++ z) ∧ OnBoundaries qs z := by
  induction ps generalizing x with
  | nil =>
    obtain rfl : x = [] := List.map_eq_nil_iff.mp h
    simp [OnBoundaries]
  | cons p ps ih =>
    obtain ⟨u, v, rfl, hu, hv⟩ := Cell.exists_append_of_chars_eq h
    rw [List.cons_append, List.append_assoc]
    cases p with
    | plain t =>
      change Cell.chars u = t at hu
      rw [onBoundaries_plain hu, onBoundaries_plain hu, ih hv]
    | marker k =>
      change Cell.chars u = k.literal at hu
      rw [onBoundaries_marker hu, onBoundaries_marker hu, ih hv, and_assoc, and_assoc]

end Piece

theorem Tree.MarkersOnBoundaries.onBoundaries {t : Tree} (h : t.MarkersOnBoundaries) :
    Piece.OnBoundaries (treePieces t) (Cell.ofText t.print) := by
  suffices ∀ ps before x y, treePieces t = before ++ ps → Cell.ofText t.print = x ++ y →
      Cell.chars x = Piece.textOf before → Piece.OnBoundaries ps y from
    this (treePieces t) [] [] _ rfl rfl rfl
  intro ps
  have hcut : ∀ {x y : List Cell}, Cell.ofText t.print = x ++ y →
      (Document.ofText t.print).isBoundary (Cell.chars x).byteLength = true →
      Cell.atBoundary y = true := by
    intro x y he hb
    have hp : t.print = Cell.chars x ++ Cell.chars y := by
      rw [← Cell.chars_append, ← he, Cell.chars_ofText]
    rw [hp, Document.isBoundary_append] at hb
    exact (Text.parted_of_ofText_eq_append he).mp hb
  induction ps with
  | nil => exact fun _ _ _ _ _ _ => trivial
  | cons p ps ih =>
    intro before x y hps hxy hx
    have hy : Cell.chars y = p.text ++ Piece.textOf ps := by
      have he := congrArg Cell.chars hxy
      rw [Cell.chars_ofText, Tree.print, hps, Piece.textOf_append, Cell.chars_append, hx] at he
      exact (List.append_cancel_left he).symm
    obtain ⟨u, v, rfl, hu, -⟩ := Cell.exists_append_of_chars_eq hy
    have hi := ih (before ++ [p]) (x ++ u) v (by rw [hps, List.append_assoc]; rfl)
      (by rw [hxy, List.append_assoc]) (by simp [hx, hu])
    cases p with
    | plain t => exact (Piece.onBoundaries_plain hu).mpr hi
    | marker k =>
      obtain ⟨hbefore, hbehind⟩ := h before k ps hps
      refine (Piece.onBoundaries_marker hu).mpr ⟨hcut hxy (by rwa [hx]), ?_, hi⟩
      apply hcut (x := x ++ u) (by rw [hxy, List.append_assoc])
      rw [Cell.chars_append, hx, hu]
      simpa [Piece.text] using hbehind

open Lexeme LexemeKind

theorem stops_of_head {t : Tree} {x z : List Cell} (hx : Cell.chars x = t.print)
    (ht : ∀ m ∈ t.head?, m.isText = false) (hz : Stops z) : Stops (x ++ z) := by
  cases t with
  | nil =>
    obtain rfl : x = [] := List.map_eq_nil_iff.mp hx
    exact hz
  | cons m t =>
    cases m with
    | text t => cases ht _ rfl
    | comment body => exact stops_of_chars (t := _) hx (by decide)
    | template parts => exact stops_of_chars (t := _) hx (by decide)
    | link first rest => exact stops_of_chars (t := _) hx (by decide)

theorem stops_of_rest {ts : List (List Node)} {x z : List Cell}
    (hx : Cell.chars x = Piece.textOf (restPieces ts)) (hz : Stops z) : Stops (x ++ z) := by
  cases ts with
  | nil =>
    obtain rfl : x = [] := List.map_eq_nil_iff.mp hx
    exact hz
  | cons t ts => exact stops_of_chars (t := _) hx (by decide)

mutual

theorem Node.exists_scans {d : Depths} : (n : Node) → n.WellFormed → {x z : List Cell} →
    Cell.chars x = n.print → Piece.OnBoundaries n.pieces (x ++ z) →
    (n.isText = true → Stops z) → ∃ ss, Scans d x z ss d ∧ n.Steps d ss
  | .text t, hw, x, z, hx, hb, hz => by
    obtain ⟨-, hplain, hc⟩ := hw
    have hx' : Cell.chars x = t := by simpa [Node.print, Node.pieces, Piece.text] using hx
    obtain ⟨ss, hs, hss⟩ := exists_scans_plain (d := d) (x := x) (by rwa [hx']) (by rwa [hx'])
      (hz rfl)
    exact ⟨ss, hs, hs.textOf_eq.trans hx', hss⟩
  | .comment body, hw, x, z, hx, hb, hz => by
    obtain ⟨o, w, rfl, ho, hw'⟩ := Cell.exists_append_of_chars_eq hx
    obtain ⟨b, c, rfl, hbody, hc⟩ := Cell.exists_append_of_chars_eq hw'
    have hc' : Cell.chars c = commentClose.literal := by simpa [Piece.text] using hc
    simp only [Node.pieces, List.append_assoc] at hb
    obtain ⟨hbo, hbb, hb⟩ := (Piece.onBoundaries_marker ho).mp hb
    obtain ⟨hbc, hbz, -⟩ := (Piece.onBoundaries_marker hc').mp
      ((Piece.onBoundaries_plain hbody).mp hb)
    refine ⟨_, scans_comment ho (by rw [hbody]; exact hw.1) (by rw [hbody]; exact hw.2) hc'
      hbo hbb hbc hbz, _, rfl, hx⟩
  | .template parts, hw, x, z, hx, hb, hz => by
    obtain ⟨o, w, rfl, ho, hw'⟩ := Cell.exists_append_of_chars_eq hx
    obtain ⟨p, c, rfl, hp, hc⟩ :=
      Cell.exists_append_of_chars_eq (hw'.trans (Piece.textOf_append _ _))
    have hc' : Cell.chars c = templateClose.literal := by simpa [Piece.text] using hc
    simp only [Node.pieces, List.append_assoc] at hb
    obtain ⟨hbo, hbp, hb⟩ := (Piece.onBoundaries_marker ho).mp hb
    obtain ⟨hbp', hb⟩ := (Piece.onBoundaries_append hp).mp hb
    obtain ⟨hbc, hbz, -⟩ := (Piece.onBoundaries_marker hc').mp hb
    obtain ⟨ss, hs, hss⟩ := exists_scans_parts (d := ⟨d.template + 1, d.link⟩) parts hw hp hbp'
      (stops_of_chars hc' (by decide))
    have hopen := scans_marker (d := d) (x := o) (z := p ++ (c ++ z)) (k := .templateOpen)
      (by decide) (by decide) ho hbo hbp
    have hclose := scans_marker (d := ⟨d.template + 1, d.link⟩) (k := .templateClose)
      (by decide) (by decide) hc' hbc hbz
    refine ⟨_, Scans.append (y := p ++ c) (by rw [List.append_assoc]; exact hopen)
      (hs.append hclose), o, c, ss, rfl, ho, hc', hss⟩
  | .link first rest, hw, x, z, hx, hb, hz => by
    obtain ⟨o, w, rfl, ho, hw'⟩ := Cell.exists_append_of_chars_eq hx
    obtain ⟨p, q, rfl, hp, hq⟩ :=
      Cell.exists_append_of_chars_eq (hw'.trans (Piece.textOf_append _ _))
    obtain ⟨r, c, rfl, hr, hc⟩ :=
      Cell.exists_append_of_chars_eq (hq.trans (Piece.textOf_append _ _))
    have hc' : Cell.chars c = linkClose.literal := by simpa [Piece.text] using hc
    simp only [Node.pieces, List.append_assoc] at hb
    obtain ⟨hbo, hbp, hb⟩ := (Piece.onBoundaries_marker ho).mp hb
    obtain ⟨hbp', hb⟩ := (Piece.onBoundaries_append hp).mp hb
    obtain ⟨hbr, hb⟩ := (Piece.onBoundaries_append hr).mp hb
    obtain ⟨hbc, hbz, -⟩ := (Piece.onBoundaries_marker hc').mp hb
    have hstop : Stops (c ++ z) := stops_of_chars hc' (by decide)
    obtain ⟨ss, hs, hss⟩ := exists_scans_tree (d := ⟨d.template, d.link + 1⟩) first hw.1 hp hbp'
      (stops_of_rest hr hstop)
    obtain ⟨ss', hs', hss'⟩ := exists_scans_rest (d := ⟨d.template, d.link + 1⟩) rest hw.2 hr hbr
      hstop
    have hopen := scans_marker (d := d) (x := o) (z := p ++ (r ++ (c ++ z))) (k := .linkOpen)
      (by decide) (by decide) ho hbo hbp
    have hclose := scans_marker (d := ⟨d.template, d.link + 1⟩) (k := .linkClose)
      (by decide) (by decide) hc' hbc hbz
    refine ⟨_, Scans.append (y := p ++ (r ++ c)) (by simpa only [List.append_assoc] using hopen)
      (Scans.append (y := r ++ c) (by rw [List.append_assoc]; exact hs)
        (hs'.append hclose)), o, c, ss, ss', ?_, ho, hc', hss, hss'⟩
    simp [Depths.after]

theorem exists_scans_tree {d : Depths} : (t : List Node) → WellFormedTree t →
    {x z : List Cell} → Cell.chars x = Piece.textOf (treePieces t) →
    Piece.OnBoundaries (treePieces t) (x ++ z) → Stops z →
    ∃ ss, Scans d x z ss d ∧ TreeSteps d t ss
  | [], hw, x, z, hx, hb, hz => by
    obtain rfl : x = [] := List.map_eq_nil_iff.mp hx
    exact ⟨[], .nil, rfl⟩
  | n :: t, hw, x, z, hx, hb, hz => by
    obtain ⟨hn, ht, hadj⟩ := hw
    rw [treePieces, Piece.textOf_append] at hx
    obtain ⟨u, v, rfl, hu, hv⟩ := Cell.exists_append_of_chars_eq hx
    rw [treePieces, List.append_assoc, Piece.onBoundaries_append hu] at hb
    obtain ⟨ss, hs, hns⟩ := n.exists_scans (d := d) hn hu hb.1 fun h => stops_of_head hv (hadj h) hz
    obtain ⟨ss', hs', hts⟩ := exists_scans_tree t ht hv hb.2 hz
    exact ⟨ss ++ ss', hs.append hs', ss, ss', rfl, hns, hts⟩

theorem exists_scans_rest {d : Depths} : (ts : List (List Node)) → WellFormedParts ts →
    {x z : List Cell} → Cell.chars x = Piece.textOf (restPieces ts) →
    Piece.OnBoundaries (restPieces ts) (x ++ z) → Stops z →
    ∃ ss, Scans d x z ss d ∧ RestSteps d ts ss
  | [], hw, x, z, hx, hb, hz => by
    obtain rfl : x = [] := List.map_eq_nil_iff.mp hx
    exact ⟨[], .nil, rfl⟩
  | t :: ts, hw, x, z, hx, hb, hz => by
    obtain ⟨b, w, rfl, hbar, hw'⟩ := Cell.exists_append_of_chars_eq hx
    obtain ⟨u, v, rfl, hu, hv⟩ :=
      Cell.exists_append_of_chars_eq (hw'.trans (Piece.textOf_append _ _))
    simp only [restPieces, List.append_assoc] at hb
    obtain ⟨hbb, hbu, hb⟩ := (Piece.onBoundaries_marker hbar).mp hb
    obtain ⟨hbu', hbv⟩ := (Piece.onBoundaries_append hu).mp hb
    obtain ⟨ss, hs, hss⟩ := exists_scans_tree (d := d) t hw.1 hu hbu' (stops_of_rest hv hz)
    obtain ⟨ss', hs', hss'⟩ := exists_scans_rest (d := d) ts hw.2 hv hbv hz
    have hpipe := scans_marker (d := d) (x := b) (z := u ++ (v ++ z)) (k := .pipe)
      (by decide) (by decide) hbar hbb hbu
    exact ⟨_, Scans.append (y := u ++ v) (by rw [List.append_assoc]; exact hpipe)
      (hs.append hs'), b, ss, ss', rfl, hbar, hss, hss'⟩

theorem exists_scans_parts {d : Depths} : (ts : List (List Node)) → WellFormedParts ts →
    {x z : List Cell} → Cell.chars x = Piece.textOf (partsPieces ts) →
    Piece.OnBoundaries (partsPieces ts) (x ++ z) → Stops z →
    ∃ ss, Scans d x z ss d ∧ PartsSteps d ts ss
  | [], hw, x, z, hx, hb, hz => by
    obtain rfl : x = [] := List.map_eq_nil_iff.mp hx
    exact ⟨[], .nil, rfl⟩
  | t :: ts, hw, x, z, hx, hb, hz => by
    rw [partsPieces, Piece.textOf_append] at hx
    obtain ⟨u, v, rfl, hu, hv⟩ := Cell.exists_append_of_chars_eq hx
    rw [partsPieces, List.append_assoc, Piece.onBoundaries_append hu] at hb
    obtain ⟨ss, hs, hss⟩ := exists_scans_tree (d := d) t hw.1 hu hb.1 (stops_of_rest hv hz)
    obtain ⟨ss', hs', hss'⟩ := exists_scans_rest (d := d) ts hw.2 hv hb.2 hz
    exact ⟨ss ++ ss', hs.append hs', ss, ss', rfl, hss, hss'⟩

end

end Wikitext
