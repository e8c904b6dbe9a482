import Mathlib.Data.List.Forall2
import Wikitext.Proofs.ImageInsertion
import Wikitext.Proofs.LeadingRun
import Wikitext.Proofs.Tiling

/-! A scan that starts again where a step has ended. What a step covers does not depend on what is
open before it, and how many templates are open behind it does not depend on the links; so the same
ranges follow, and a scan that has lost count of the links still knows when it is outside all
templates. The items of the leading block, each found by a scan of its own, are seen by one scan of
the whole text as well. -/

namespace Wikitext

open Step LeadingItem

namespace Step

theorem exists_next?_at {d e : Depths} {cells y : List Cell} {s : Step}
    (h : next? (d, cells) = some (s, (e, y))) (d' : Depths) :
    ∃ s' e', next? (d', cells) = some (s', (e', y)) ∧ s'.cells = s.cells ∧
      (d'.template = d.template → e'.template = e.template) := by
  simp only [next?] at h ⊢
  split at h
  · cases h
  · rename_i l rest hn
    split at h
    · rename_i hk
      cases h
      simp only [if_pos hk]
      exact ⟨_, _, rfl, rfl, id⟩
    · rename_i hk
      cases h
      simp only [if_neg hk]
      exact ⟨_, _, rfl, rfl, fun ht => Depths.template_after_congr ht _⟩

/-- Scans of the same cells take the same steps, each with as many templates open, if as many are
open before the first. -/
theorem forall₂_scanFrom (d d' : Depths) (cells : List Cell) :
    List.Forall₂ (fun s s' => s'.cells = s.cells ∧
      (d'.template = d.template → s'.depths.template = s.depths.template))
      (scanFrom d cells) (scanFrom d' cells) := by
  generalize hss : scanFrom d cells = ss
  induction ss generalizing d d' cells with
  | nil =>
    rw [eq_nil_of_scanFrom hss, scanFrom_nil]
    exact .nil
  | cons s ss ih =>
    obtain ⟨e, y, hn, hrest⟩ := exists_of_scanFrom_cons hss
    obtain ⟨s', e', hn', hcells, htemplate⟩ := exists_next?_at hn d'
    rw [scanFrom_eq d', hn']
    rw [← (depths_of_next? hn).1, ← (depths_of_next? hn').1] at htemplate
    refine .cons ⟨hcells, htemplate⟩ ((ih e e' y hrest).imp fun a a' ha => ⟨ha.1, fun ht => ?_⟩)
    apply ha.2
    rw [← (depths_of_next? hn).1, ← (depths_of_next? hn').1]
    exact htemplate ht

theorem map_fst_place {ss ss' : List Step}
    (h : List.Forall₂ (fun s s' => s'.cells = s.cells) ss ss') (b : Nat) :
    (place b ss).map Prod.fst = (place b ss').map Prod.fst := by
  induction h generalizing b with
  | nil => rfl
  | cons hs _ ih =>
    simp only [place, List.map_cons, text, hs, ih]

theorem exists_of_place_eq_append {b : Nat} {ss : List Step} {ps qs : List (ByteRange × Step)}
    (h : place b ss = ps ++ qs) : ∃ us vs, ss = us ++ vs ∧ ps = place b us ∧
      qs = place (b + (textOf us).byteLength) vs := by
  induction ps generalizing b ss with
  | nil => exact ⟨[], ss, rfl, rfl, h.symm⟩
  | cons p ps ih =>
    cases ss with
    | nil => cases h
    | cons s ss =>
      obtain ⟨rfl, hrest⟩ := List.cons.inj h
      obtain ⟨us, vs, rfl, rfl, rfl⟩ := ih hrest
      refine ⟨s :: us, vs, rfl, rfl, ?_⟩
      rw [textOf_cons, Text.byteLength_append, Nat.add_assoc]

theorem flatMap_cells_congr {ss ss' : List Step}
    (h : List.Forall₂ (fun s s' => s'.cells = s.cells) ss ss') :
    ss'.flatMap (·.cells) = ss.flatMap (·.cells) := by
  induction h with
  | nil => rfl
  | cons hs _ ih => rw [List.flatMap_cons, List.flatMap_cons, hs, ih]

theorem template_depthsBehind {d e : Depths} {ss ss' : List Step} (hd : e.template = d.template)
    (h : List.Forall₂ (fun s s' => s'.depths.template = s.depths.template) ss ss') :
    (depthsBehind e ss').template = (depthsBehind d ss).template := by
  induction h generalizing d e with
  | nil => exact hd
  | cons hs _ ih => exact ih hs

/-- `Arrives w c e`: the scan of the cells `w ++ c` comes to the cells `c` with the depths `e`. -/
def Arrives (w c : List Cell) (e : Depths) : Prop :=
  ∃ us, scanFrom .zero (w ++ c) = us ++ scanFrom e c ∧ textOf us = Cell.chars w ∧
    e = depthsBehind .zero us

namespace Arrives

variable {w x c : List Cell} {e f : Depths} {ss : List Step}

theorem nil : Arrives [] c .zero :=
  ⟨[], rfl, rfl, rfl⟩

theorem append (h : Arrives w (x ++ c) e) (hs : scanFrom e (x ++ c) = ss ++ scanFrom f c)
    (ht : textOf ss = Cell.chars x) (hf : f = depthsBehind e ss) : Arrives (w ++ x) c f := by
  obtain ⟨us, hus, htext, rfl⟩ := h
  refine ⟨us ++ ss, ?_, ?_, ?_⟩
  · rw [List.append_assoc, hus, hs, List.append_assoc]
  · rw [textOf_append, htext, ht, Cell.chars_append]
  · rw [hf, depthsBehind, depthsBehind, depthsBehind, List.foldl_append]

theorem scans (h : Arrives w (x ++ c) e) (hs : Scans e x c ss f) : Arrives (w ++ x) c f :=
  h.append hs.scanFrom_eq hs.textOf_eq hs.depths_eq

end Arrives

end Step

namespace Document

/-- `PausesAt d p e`: a step of the scan of the whole text ends at the byte `p`, or the first begins
there, and the depths there are `e`. -/
inductive PausesAt (d : Document) : Nat → Depths → Prop
  | first : PausesAt d 0 .zero
  | behind {r : ByteRange} {s : Step} (h : (r, s) ∈ d.stepsFrom 0) : PausesAt d r.stop s.depths

/-- The byte `p` lies between two steps of the scan of the whole text, where no template is open. -/
def Outside (d : Document) (p : Nat) : Prop :=
  ∃ links, d.PausesAt p ⟨0, links⟩

/-- A scan started again at a boundary at which a step ended covers the ranges of the steps left,
and takes just these steps if nothing was open there. -/
theorem stepsFrom_stop {t : Text} {byte : Nat} {us vs : List (ByteRange × Step)} {r : ByteRange}
    {s : Step} (h : (ofText t).stepsFrom byte = us ++ (r, s) :: vs)
    (hb : (ofText t).isBoundary r.stop = true) :
    ((ofText t).stepsFrom r.stop).map Prod.fst = vs.map Prod.fst ∧
      (s.depths = .zero → (ofText t).stepsFrom r.stop = vs) := by
  obtain ⟨w, hw, hstart, -⟩ := exists_cellsFrom ((ofText t).isBoundary_byteAt
    ((ofText t).clusterAt byte))
  obtain ⟨us', ss, hscan, -, hplace⟩ := exists_of_place_eq_append h
  cases ss with
  | nil => cases hplace
  | cons s' vs' =>
    obtain ⟨he, hvs⟩ := List.cons.inj hplace
    obtain ⟨hr, rfl⟩ := Prod.mk.inj he
    obtain ⟨x, y, e, ⟨f, z⟩, hxy, hx, hn, rfl⟩ := exists_next?_of_scanFrom hscan
    have hcut : Cell.ofText t = (w ++ (x ++ s.cells)) ++ z := by
      rw [hw, hxy, next?_tiles hn]
      simp only [List.append_assoc]
    have hstop : r.stop = (Cell.chars (w ++ (x ++ s.cells))).byteLength := by
      rw [hr, ← hstart, ← hx]
      simp only [Cell.chars_append, Text.byteLength_append, Nat.add_assoc, Step.text]
    have hvs' : vs = place r.stop (scanFrom s.depths z) := by
      rw [hvs, hr, (depths_of_next? hn).1]
    rw [hstop, isBoundary_cut hcut] at hb
    rw [hvs', hstop, stepsFrom_cut hcut hb]
    refine ⟨map_fst_place ?_ _, fun hzero => ?_⟩
    · exact (forall₂_scanFrom .zero s.depths z).imp fun _ _ ha => ha.1
    · rw [hzero, scan]

theorem PausesAt.stop_le_or_le {d : Document} {p : Nat} {e : Depths} (h : d.PausesAt p e) :
    ∀ q ∈ d.stepsFrom 0, q.1.stop ≤ p ∨ p ≤ q.1.start := by
  intro q hq
  cases h with
  | first => exact .inr (Nat.zero_le _)
  | @behind r s h =>
    simp only [stepsFrom] at h hq
    generalize d.byteAt (d.clusterAt 0) = b at h hq
    obtain ⟨us, vs, hss, hstart, hstop⟩ := exists_of_mem_place h
    rw [hss, place_append, place] at hq
    rcases List.mem_append.mp hq with hq | hq
    · have := (bounds_of_mem_place hq).2
      omega
    · rcases List.mem_cons.mp hq with rfl | hq
      · simp only
        omega
      · have := (bounds_of_mem_place hq).1
        omega

theorem pausesAt_of_arrives {t : Text} {w c : List Cell} {e : Depths}
    (ht : Cell.ofText t = w ++ c) (h : Arrives w c e) :
    (ofText t).PausesAt (Cell.chars w).byteLength e := by
  obtain ⟨us, hus, htext, rfl⟩ := h
  rw [← htext]
  rcases List.eq_nil_or_concat us with rfl | ⟨us, s, rfl⟩
  · exact .first
  · rw [List.concat_eq_append] at *
    have hsteps : (ofText t).stepsFrom 0 =
        place 0 (us ++ s :: scanFrom (depthsBehind .zero (us ++ [s])) c) := by
      rw [stepsFrom_zero, steps, scan, cells_ofText, ht, hus, List.append_assoc]
      rfl
    have hmem := mem_place 0 us (scanFrom (depthsBehind .zero (us ++ [s])) c) s
    rw [← hsteps] at hmem
    have hpause := PausesAt.behind hmem
    rw [depthsBehind, List.foldl_append]
    simpa using hpause

end Document

namespace LeadingItem

theorem exists_scanFrom_of_body {c : List Cell} {steps : List Step}
    (h : bodySteps? c = some steps) : ∃ rest, scanFrom .zero c = steps ++ rest ∧
      (depthsBehind .zero steps).template = 0 := by
  simp only [bodySteps?] at h
  split at h
  · cases h
  · rename_i s d y hn
    have hscan : scanFrom .zero c = s :: scanFrom d y := by rw [scanFrom_eq, hn]
    split at h
    · rename_i hk
      obtain rfl := Option.some.inj h
      refine ⟨_, hscan, ?_⟩
      obtain ⟨hd, ⟨-, hzero⟩ | ⟨k, hk'⟩⟩ := depths_of_next? hn
      · rw [depthsBehind, List.foldl_cons, List.foldl_nil, hd, hzero]
        rfl
      · exact absurd (congrArg Prod.fst hk') (hk ▸ after_ne_comment _ _)
    · obtain ⟨more, hm, rfl⟩ := Option.map_eq_some_iff.mp h
      obtain ⟨us, a, rest, rfl, hrest, -, ha⟩ := exists_of_scanUntil? hm
      refine ⟨rest, ?_, ?_⟩
      · rw [hscan, hrest]
        simp
      · simp only [closes, Bool.and_eq_true, decide_eq_true_eq] at ha
        simpa [depthsBehind] using ha.2
    · cases h

/-- The steps of an item, when some links are open before it: they cover the same cells and leave no
template open. -/
theorem exists_steps_of_body {c : List Cell} {steps : List Step} (h : bodySteps? c = some steps)
    (links : Nat) : ∃ ss z m, c = steps.flatMap (·.cells) ++ z ∧
      scanFrom ⟨0, links⟩ c = ss ++ scanFrom ⟨0, m⟩ z ∧
      textOf ss = textOf steps ∧ ⟨0, m⟩ = depthsBehind ⟨0, links⟩ ss := by
  obtain ⟨rest, hscan, hzero⟩ := exists_scanFrom_of_body h
  have hall := forall₂_scanFrom ⟨0, links⟩ .zero c
  rw [hscan] at hall
  have hfirst := List.forall₂_take_append _ _ _ hall
  obtain ⟨z, hz, hrest⟩ := exists_behind (List.take_append_drop steps.length
    (scanFrom ⟨0, links⟩ c)).symm
  have hsplit := List.take_append_drop steps.length (scanFrom ⟨0, links⟩ c)
  generalize (scanFrom ⟨0, links⟩ c).take steps.length = ss at *
  have hcells := flatMap_cells_congr (hfirst.imp fun _ _ h => h.1)
  have htemplate := template_depthsBehind (d := ⟨0, links⟩) (e := .zero) rfl
    (hfirst.imp fun _ _ h => h.2 rfl)
  rw [hzero] at htemplate
  have hlinks : (⟨0, _⟩ : Depths) = depthsBehind ⟨0, links⟩ ss :=
    congrArg (Depths.mk · (depthsBehind ⟨0, links⟩ ss).link) htemplate
  refine ⟨ss, z, _, ?_, ?_, ?_, hlinks⟩
  · rw [hcells]
    exact hz
  · rw [hlinks, ← hrest, hsplit]
  · rw [← chars_flatMap_cells, ← hcells, chars_flatMap_cells]

end LeadingItem

namespace LeadingBlock

/-- All ends in a run of items lie outside the templates of the whole text, if the run begins where
a scan of it arrives outside them. -/
theorem outside_itemsOf {t : Text} {w c : List Cell} {links : Nat} (ht : Cell.ofText t = w ++ c)
    (h : Arrives w c ⟨0, links⟩) :
    (Document.ofText t).Outside
      ((Cell.chars w).byteLength + Text.byteLength ((itemsOf c).flatMap LeadingItem.text)) ∧
    ∀ r ∈ bodyRanges (Cell.chars w).byteLength (itemsOf c),
      (Document.ofText t).Outside r.start ∧ (Document.ofText t).Outside r.stop := by
  generalize hn : c.length = n
  induction n using Nat.strongRecOn generalizing w c links with
  | ind n ih =>
    rw [itemsOf_eq]
    cases hi : LeadingItem.next? c with
    | none => exact ⟨⟨links, Document.pausesAt_of_arrives ht h⟩, by simp [bodyRanges]⟩
    | some p =>
      obtain ⟨i, rest⟩ := p
      have hlt : rest.length < n := hn ▸ LeadingItem.next?_shrinks _ _ _ hi
      obtain ⟨blank, steps, feeds, rfl, ⟨rfl, hwhite, hnewlines⟩, hb, -⟩ := exists_parts hi
      -- The white space ahead of the item, the item, and the line breaks behind it, one by one.
      obtain ⟨a, r, hcons, hchar, -⟩ := exists_cons_of_body hb
      have hmarkers : ∀ c ∈ ['<', '{'], isMarkerChar c = true := by decide
      obtain ⟨ls, hp, hls⟩ := exists_passes_white hwhite
        (z := steps.flatMap (·.cells) ++ (feeds ++ rest)) (by
          rw [hcons]
          simpa using hmarkers _ hchar)
      obtain ⟨ws, hg, -⟩ := exists_groups_of_plain (d := ⟨0, links⟩)
        fun l hl => (hls l hl).imp_right .inl
      have hblank := h.scans ⟨ls, hp, hg⟩
      obtain ⟨ss, z, m, hz, hscan, htext, hm⟩ := exists_steps_of_body hb links
      rw [List.append_cancel_left_eq] at hz
      subst hz
      have hbody := hblank.append hscan (by rw [htext, chars_flatMap_cells]) hm
      obtain ⟨fs, hfeeds, -⟩ := hnewlines.exists_scans ⟨0, m⟩ rest
      have hitem := hbody.scans hfeeds
      simp only [List.append_assoc] at hblank hbody hitem
      have hstart := Document.pausesAt_of_arrives (by simpa using ht) hblank
      have hstop := Document.pausesAt_of_arrives (by simpa using ht) hbody
      obtain ⟨hend, hranges⟩ := ih _ hlt (by simpa using ht) hitem rfl
      simp only [Cell.chars_append, Text.byteLength_append, ← Nat.add_assoc]
        at hstart hstop hend hranges
      simp only [List.flatMap_cons, bodyRanges, LeadingItem.text, Text.byteLength_append,
        List.forall_mem_cons, ← Nat.add_assoc]
      exact ⟨hend, ⟨⟨links, hstart⟩, m, hstop⟩, hranges⟩

theorem outside_leadingBlock (t : Text) :
    let d := Document.ofText t
    d.Outside (ofDocument d).text.byteLength ∧ ∀ r ∈ bodyRanges 0 (ofDocument d).items,
      d.Outside r.start ∧ d.Outside r.stop := by
  have h := outside_itemsOf (t := t) (w := []) rfl Arrives.nil
  rwa [Cell.chars_nil, Text.byteLength_nil, Nat.zero_add] at h

end LeadingBlock

namespace Document

/-- Where markup is put in, the scan of the new text stands outside all templates and comments,
unless the leading block ends in a comment without an end. -/
theorem outside_insertImage {markup text head tail : Text} (hm : markup ≠ []) (ht : text ≠ [])
    (hhead : (LeadingBlock.ofDocument (ofText text)).text = head) (htext : text = head ++ tail)
    (hend : ∀ i ∈ (LeadingBlock.ofDocument (ofText text)).items.getLast?, ¬ i.Unterminated) :
    (ofText (insertImage markup text)).Outside (head ++ text.gapAbove head).byteLength := by
  obtain ⟨x, z, hcells, hx, hbalanced, hz⟩ := LeadingBlock.exists_of_itemsOf
    (List.nil_append (Cell.ofText text)).symm (Cell.atBoundary_ofText text) hend
  obtain rfl : Cell.chars x = head := hx.trans hhead
  obtain ⟨c, r, rfl⟩ := List.exists_cons_of_ne_nil hm
  have hparted := parted_gapAbove text hbalanced.ends c
    (r ++ (text.gapBelow (Cell.chars x) tail ++ tail))
  have hgap := text.gap_gapAbove (Cell.chars x)
  have hnew := insertImage_eq hm ht hhead htext
  generalize text.gapAbove (Cell.chars x) = u at *
  rw [List.cons_append] at hnew
  generalize c :: (r ++ (text.gapBelow (Cell.chars x) tail ++ tail)) = rest at *
  have hcut : Cell.ofText (insertImage (c :: r) text) =
      (x ++ Cell.ofText u) ++ Cell.ofText rest := by
    rw [hnew, Text.ofText_append hparted, Text.ofText_append (hgap.parted rest),
      ← (Text.cells_of_ofText_eq_append hcells).1, List.append_assoc]
  obtain ⟨ls, hsevered, hgroups⟩ := hbalanced.reads
  obtain ⟨ss, m, hss⟩ := hgroups 0
  have hhere : Scans .zero x (Cell.ofText u ++ Cell.ofText rest) ss ⟨0, m⟩ :=
    ⟨ls, hsevered _ (Cell.atBoundary_append_of (Cell.atBoundary_ofText u)
      (Cell.atBoundary_ofText rest)), hss⟩
  obtain ⟨us, hus, -⟩ := hgap.newlines.exists_scans ⟨0, m⟩ (Cell.ofText rest)
  have harrives := (Arrives.nil.scans hhere).scans hus
  rw [List.nil_append] at harrives
  have hpause := pausesAt_of_arrives hcut harrives
  rw [Cell.chars_append, Cell.chars_ofText] at hpause
  exact ⟨m, hpause⟩

theorem exists_insertImage_eq (markup text : Text) : ∃ u v tail, Text.Gap u ∧ Text.Gap v ∧
    text = (LeadingBlock.ofDocument (ofText text)).text ++ tail ∧
    insertImage markup text = (LeadingBlock.ofDocument (ofText text)).text ++
      (u ++ (markup ++ (v ++ tail))) ∧
    ((∀ i ∈ (LeadingBlock.ofDocument (ofText text)).items.getLast?, ¬ i.Unterminated) →
      (ofText (insertImage markup text)).Outside
        ((LeadingBlock.ofDocument (ofText text)).text ++ u).byteLength) := by
  have hsplit := (LeadingBlock.text_append_rest text).symm
  have houtside := (LeadingBlock.outside_leadingBlock text).1
  by_cases hm : markup = []
  · have hsame : insertImage markup text = text := if_pos hm
    refine ⟨[], [], _, .inl rfl, .inl rfl, hsplit, ?_, fun _ => ?_⟩
    · rw [hsame, hm]
      exact hsplit
    · rwa [hsame, List.append_nil]
  by_cases ht : text = []
  · have hall : insertImage markup text = markup := by rw [insertImage, if_neg hm, if_pos ht]
    rw [ht] at hsplit
    obtain ⟨hhead, -⟩ := List.append_eq_nil_iff.mp hsplit.symm
    rw [hall, ht, hhead]
    exact ⟨[], [], [], .inl rfl, .inl rfl, rfl, (List.append_nil markup).symm, fun _ => ⟨0, .first⟩⟩
  exact ⟨_, _, _, text.gap_gapAbove _, text.gap_gapBelow _ _, hsplit,
    insertImage_eq hm ht rfl hsplit, outside_insertImage hm ht rfl hsplit⟩

end Document

/-- A scan that starts again at a cluster boundary where a step has ended covers the same ranges as
the steps left, and takes the same steps if nothing was open there. So the ends of the leading block
and of its items, which scans of their own have found, lie between steps of the scan of the whole
text, outside all templates; what is put in behind the block is put into no step, and where it
begins the new text is outside all templates as well, unless a comment without an end is open. -/
theorem stepsFrom_restart (t : Text) :
    let d := Document.ofText t
    let b := LeadingBlock.ofDocument d
    (∀ byte us r s vs, d.stepsFrom byte = us ++ (r, s) :: vs → d.isBoundary r.stop = true →
      (d.stepsFrom r.stop).map Prod.fst = vs.map Prod.fst ∧
        (s.depths = .zero → d.stepsFrom r.stop = vs)) ∧
    (d.Outside b.text.byteLength ∧ ∀ r ∈ LeadingBlock.bodyRanges 0 b.items,
      d.Outside r.start ∧ d.Outside r.stop) ∧
    (∀ q ∈ d.stepsFrom 0, q.1.stop ≤ b.text.byteLength ∨ b.text.byteLength ≤ q.1.start) ∧
    ∀ markup, ∃ u v tail, Text.Gap u ∧ Text.Gap v ∧ t = b.text ++ tail ∧
      insertImage markup t = b.text ++ (u ++ (markup ++ (v ++ tail))) ∧
      ((∀ i ∈ b.items.getLast?, ¬ i.Unterminated) →
        (Document.ofText (insertImage markup t)).Outside (b.text ++ u).byteLength) := by
  intro d b
  have houtside := LeadingBlock.outside_leadingBlock t
  obtain ⟨links, hpause⟩ := houtside.1
  exact ⟨fun byte us r s vs => Document.stepsFrom_stop, houtside, hpause.stop_le_or_le,
    fun markup => Document.exists_insertImage_eq markup t⟩

/-- An article that begins with a template in which a link opens; the link closes behind it. -/
def leakingArticle : Text :=
  "\x7b\x7ba [[b\x7d\x7d]] c".toList

/-- Behind the template the scan of the whole article closes the link, and a scan that starts there
has none to close; the ranges are the same. -/
theorem stepsFrom_restart_leakingArticle :
    let d := Document.ofText leakingArticle
    ((d.stepsFrom 9).map Prod.fst = [⟨9, 11⟩, ⟨11, 13⟩] ∧
      ((d.stepsFrom 0).drop 5).map (·.2.kind) = [.linkClose, .text] ∧
      (d.stepsFrom 9).map (·.2.kind) = [.text, .text]) ∧
    (LeadingBlock.ofDocument d).text.byteLength = 9 ∧ d.Outside 9 := by
  intro d
  have hend : (LeadingBlock.ofDocument d).text.byteLength = 9 := by decide +kernel
  obtain ⟨hrestart, ⟨houtside, -⟩, -⟩ := stepsFrom_restart leakingArticle
  have hsteps : d.stepsFrom 0 = (d.stepsFrom 0).take 4 ++
      (⟨7, 9⟩, ⟨.templateClose, Cell.ofText "\x7d\x7d".toList, ⟨0, 1⟩⟩) ::
        (d.stepsFrom 0).drop 5 := by decide +kernel
  have hranges := (hrestart 0 _ _ _ _ hsteps (by decide +kernel)).1
  refine ⟨⟨hranges.trans (by decide +kernel), by decide +kernel, by decide +kernel⟩, hend, ?_⟩
  rwa [hend] at houtside

end Wikitext
