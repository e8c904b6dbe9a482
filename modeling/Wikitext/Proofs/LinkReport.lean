import Wikitext.Proofs.MediaLinks
import Wikitext.Proofs.StepRanges

/-! Every outermost link is reported, whatever else the text holds. Each step that opens a link
outside all links is looked at; between it and the step that closes it the link depth stays above
zero, so no other link opens outside all links there. -/

namespace Wikitext

open Step

namespace OuterLink

theorem not_opens_of_next? {d e : Depths} {cells y : List Cell} {s : Step}
    (h : Step.next? (d, cells) = some (s, (e, y))) (hd : d.link ≠ 0) (hs : closes s = false) :
    opens s = false ∧ e.link ≠ 0 := by
  obtain ⟨hdepths, hafter⟩ := depths_of_next? h
  rcases hafter with ⟨hk, rfl⟩ | ⟨k, hk⟩
  · exact ⟨by simp [opens, hk], hd⟩
  · have hlink := d.link_after k
    simp only [hk] at hlink
    rcases hlink with ⟨-, he⟩ | ⟨hc, -⟩ | ⟨hno, -, he⟩
    · simp [opens, hdepths, he, hd]
    · simp_all [opens, closes]
    · exact ⟨by simp [opens, hno], he ▸ hd⟩

theorem not_opens_of_scanFrom {d : Depths} {cells : List Cell} {us rest : List Step}
    (h : scanFrom d cells = us ++ rest) (hd : d.link ≠ 0)
    (hus : ∀ s ∈ us, closes s = false) : ∀ s ∈ us, opens s = false := by
  exact forall_of_scanFrom (P := (·.link ≠ 0)) (p := (closes · = false))
    (fun hn hd hs => (not_opens_of_next? hn hd hs).symm) h hd hus

/-- Behind each step that opens an outermost link the next such step comes after one that closes
it. -/
def Alternates (ss : List Step) : Prop :=
  ∀ u o v w, ss = u ++ o :: (v ++ w) → opens o = true → (∀ s ∈ v, closes s = false) →
    ∀ s ∈ v, opens s = false

theorem Alternates.of_append {p ss : List Step} (h : Alternates (p ++ ss)) : Alternates ss := by
  rintro u o v w rfl
  exact h (p ++ u) o v w (List.append_assoc ..).symm

theorem alternates_scanFrom (d : Depths) (cells : List Cell) : Alternates (scanFrom d cells) := by
  intro u o v w hscan ho
  obtain ⟨x, y, e, t, -, -, hn, ht⟩ := exists_next?_of_scanFrom hscan
  have hdepths := (depths_of_next? hn).1
  have hlink := (opens_iff.mp ho).2
  exact not_opens_of_scanFrom ht (by rw [← hdepths, hlink]; exact Nat.one_ne_zero)

/-- The bytes of the first and of the last step. -/
def ends (l : OuterLink) : ByteRange × ByteRange :=
  (⟨l.start, l.start + l.opening.text.byteLength⟩,
    ⟨l.start + (l.opening.text ++ textOf l.inside).byteLength, l.bytes.stop⟩)

theorem ofSteps_unclosed {o : Step} {ss : List Step} (ho : opens o = true)
    (h : ∀ s ∈ ss, closes s = false) (b : Nat) : ofSteps b (o :: ss) = [] := by
  have hdrop : ss.dropWhile (!closes ·) = [] := by
    apply List.dropWhile_eq_nil_iff.mpr
    intro s hs
    simp [h s hs]
  rw [ofSteps_eq]
  simp [next?, ho, hdrop]

end OuterLink

open OuterLink

namespace Document

/-- For each step that takes the link depth from zero to one and is followed by one that takes it
back to zero, the bytes of the two; the second is the next that does so. -/
def linkEnds : List (ByteRange × Step) → List (ByteRange × ByteRange)
  | [] => []
  | (r, s) :: ps =>
    if opens s then
      match ps.find? (closes ·.2) with
      | some (r', _) => (r, r') :: linkEnds ps
      | none => linkEnds ps
    else linkEnds ps

theorem linkEnds_place_append {us : List Step} (h : ∀ s ∈ us, opens s = false) (b : Nat)
    (vs : List Step) :
    linkEnds (place b (us ++ vs)) = linkEnds (place (b + (textOf us).byteLength) vs) := by
  induction us generalizing b with
  | nil => rfl
  | cons s us ih =>
    rw [List.cons_append, place, linkEnds, h s List.mem_cons_self, if_neg Bool.false_ne_true,
      ih fun s hs => h s (List.mem_cons_of_mem _ hs), textOf_cons, Text.byteLength_append,
      Nat.add_assoc]

theorem linkEnds_place_unclosed {o : Step} {ss : List Step} (ho : opens o = true)
    (hs : ∀ s ∈ ss, closes s = false) (hquiet : ∀ s ∈ ss, opens s = false) (b : Nat) :
    linkEnds (place b (o :: ss)) = [] := by
  have hskip := linkEnds_place_append hquiet (b + o.text.byteLength) []
  rw [List.append_nil] at hskip
  rw [place, linkEnds, if_pos ho, find?_place_eq_none hs, hskip]
  rfl

theorem linkEnds_place_link {o c : Step} {inside : List Step} (ho : opens o = true)
    (hi : ∀ s ∈ inside, closes s = false) (hquiet : ∀ s ∈ inside, opens s = false)
    (hc : closes c = true) (b : Nat) (rest : List Step) :
    linkEnds (place b (o :: (inside ++ c :: rest))) =
      (⟨b, o, inside, c⟩ : OuterLink).ends ::
        linkEnds (place (⟨b, o, inside, c⟩ : OuterLink).bytes.stop rest) := by
  have hno : opens c = false := by simp [opens, (closes_iff.mp hc).1]
  have hpass : ∀ s ∈ inside ++ [c], opens s = false := by
    intro s hs
    rcases List.mem_append.mp hs with hs | hs
    · exact hquiet s hs
    · rwa [List.mem_singleton.mp hs]
  have hskip := linkEnds_place_append hpass (b + o.text.byteLength) rest
  have hstop : (⟨b, o, inside, c⟩ : OuterLink).bytes.stop =
      b + o.text.byteLength + (textOf (inside ++ [c])).byteLength := by
    simp [bytes, text_eq_append, Nat.add_assoc]
  rw [List.append_assoc, List.singleton_append] at hskip
  rw [place, linkEnds, if_pos ho, find?_place hi hc, hskip, hstop]
  simp [ends, hstop, Nat.add_assoc]

theorem linkEnds_place {ss : List Step} (h : Alternates ss) (b : Nat) :
    linkEnds (place b ss) = (ofSteps b ss).map ends := by
  generalize hn : ss.length = n
  induction n using Nat.strongRecOn generalizing b ss with
  | ind n ih =>
    cases ss with
    | nil =>
      rw [OuterLink.ofSteps_eq]
      rfl
    | cons s ss =>
      by_cases hs : opens s = true
      · cases hfind : ss.find? closes with
        | none =>
          -- The link is never closed, and behind it no other is outermost.
          have hno : ∀ c ∈ ss, closes c = false := by simpa using hfind
          have hquiet := h [] s ss [] (by simp) hs hno
          rw [ofSteps_unclosed hs hno, linkEnds_place_unclosed hs hno hquiet]
          rfl
        | some c =>
          obtain ⟨hc, inside, rest, rfl, hinside⟩ := List.find?_eq_some_iff_append.mp hfind
          have hi : ∀ a ∈ inside, closes a = false := by simpa using hinside
          have hquiet := h [] s inside (c :: rest) rfl hs hi
          have hrest : Alternates rest := Alternates.of_append (p := s :: (inside ++ [c]))
            (by simpa using h)
          have hlt : rest.length < n := by
            rw [← hn]
            simp only [List.length_cons, List.length_append]
            omega
          rw [OuterLink.ofSteps_eq, next?_link hs hi hc, linkEnds_place_link hs hi hquiet hc,
            ih _ hlt hrest _ rfl]
          rfl
      · rw [Bool.not_eq_true] at hs
        have hone : ∀ a ∈ [s], opens a = false := by simpa using hs
        have hskip := linkEnds_place_append hone b ss
        rw [List.singleton_append] at hskip
        rw [hskip, ofSteps_other hs, ih _ (by simp [← hn]) (h.of_append (p := [s])) _ rfl]
        simp

/-- The first alias that is not empty and with which, and a colon, the text behind a byte begins; a
cluster boundary follows the colon. -/
def aliasBehind? (d : Document) (aliases : List Text) (byte : Nat) : Option Text :=
  aliases.find? fun a => a ≠ [] && (a ++ [':']).isPrefixOf (d.text.dropBytes byte) &&
    d.isBoundary (byte + Text.byteLength (a ++ [':']))

/-- The links are the outermost ones that begin with an alias, each with the first such alias. They
lie between boundaries, one behind the other, and their spans denote the bytes they cover. -/
structure Reports (d : Document) (aliases : List Text) (links : List MediaLink) : Prop where
  outermost : links.map (fun l => (l.bytes, l.aliasUsed)) =
    (linkEnds (d.stepsFrom 0)).filterMap fun p =>
      (d.aliasBehind? aliases p.1.stop).map fun a => (⟨p.1.start, p.2.stop⟩, a)
  increasing : links.Pairwise fun l l' => l.bytes.stop ≤ l'.bytes.start
  boundaries : ∀ l ∈ links, l.bytes.start < l.bytes.stop ∧
    d.isBoundary l.bytes.start = true ∧ d.isBoundary l.bytes.stop = true
  spans : ∀ l ∈ links, d.bytesOf l.span = l.bytes ∧
    d.slice l.span = d.text.slice l.bytes.start l.bytes.stop

theorem linkEnds_stepsFrom (t : Text) :
    linkEnds ((ofText t).stepsFrom 0) = (ofText t).outerLinks.map ends := by
  rw [stepsFrom_zero]
  exact linkEnds_place (alternates_scanFrom _ _) 0

section

variable {t : Text} {x y z : List Cell} {pre : List Step} {l : OuterLink}
  {before : List OuterLink} {d e : Depths}

theorem Placed.alias?_eq (h : Placed t x y z pre l before d e) {aliases : List Text}
    (ha : ∀ a ∈ aliases, Clean a) :
    l.alias? aliases = (ofText t).aliasBehind? aliases l.ends.1.stop := by
  have hbytes : l.ends.1.stop = (Cell.chars (x ++ l.opening.cells)).byteLength := by
    rw [Cell.chars_append, Text.byteLength_append, ← h.start_eq]
    rfl
  have hdrop : t.dropBytes l.ends.1.stop =
      Cell.chars (l.inside.flatMap (·.cells) ++ l.closing.cells ++ z) := by
    have ht := congrArg Cell.chars h.cells_opening
    rw [Cell.chars_ofText, Cell.chars_append] at ht
    rw [hbytes, ht, Text.dropBytes_append]
  rw [← h.written.aliasAt?_append ha z, MediaLink.aliasAt?_eq h.cells_opening, aliasBehind?,
    text_ofText, hdrop, hbytes]

theorem Placed.isBoundary_start (h : Placed t x y z pre l before d e) :
    (ofText t).isBoundary l.bytes.start = true := by
  rw [OuterLink.bytes, h.start_eq, isBoundary_cut h.cells]
  exact h.atBoundary

theorem Placed.isBoundary_stop (h : Placed t x y z pre l before d e) :
    (ofText t).isBoundary l.bytes.stop = true := by
  have hcut : Cell.ofText t = (x ++ y) ++ z := by rw [h.cells, List.append_assoc]
  have hstop : l.bytes.stop = (Cell.chars (x ++ y)).byteLength := by
    rw [OuterLink.bytes, h.start_eq, h.text_eq, Cell.chars_append, Text.byteLength_append]
  rw [hstop, isBoundary_cut hcut]
  exact h.atBoundary_behind

end

theorem pairwise_of_append {α : Type} {R : α → α → Prop} {xs : List α}
    (h : ∀ before a behind, xs = before ++ a :: behind → ∀ b ∈ before, R b a) :
    xs.Pairwise R := by
  induction xs using List.reverseRecOn with
  | nil => exact .nil
  | append_singleton xs a ih =>
    refine List.pairwise_append.mpr ⟨ih ?_, List.pairwise_singleton R a, ?_⟩
    · rintro before b behind rfl
      exact h before b (behind ++ [a]) (by simp)
    · intro b hb c hc
      rw [List.mem_singleton.mp hc]
      exact h xs a [] rfl b hb

theorem pairwise_outerLinks (t : Text) :
    (ofText t).outerLinks.Pairwise fun l l' => l.bytes.stop ≤ l'.bytes.start :=
  pairwise_of_append fun _ _ _ h _ hb => stop_le_of_outerLinks h hb

theorem map_media? {aliases : List Text} (ha : ∀ a ∈ aliases, Clean a) (t : Text) :
    ((ofText t).outerLinks.filterMap (media? (ofText t) aliases)).map
        (fun m => (m.bytes, m.aliasUsed)) =
      (linkEnds ((ofText t).stepsFrom 0)).filterMap fun p =>
        ((ofText t).aliasBehind? aliases p.1.stop).map fun a => (⟨p.1.start, p.2.stop⟩, a) := by
  rw [linkEnds_stepsFrom, List.filterMap_map, List.map_filterMap]
  apply List.filterMap_congr
  intro l hl
  obtain ⟨_, _, _, _, _, _, _, hp⟩ := exists_placed_of_mem hl
  rw [media?, Option.map_map, hp.alias?_eq ha]
  rfl

theorem reports_media? {aliases : List Text} (ha : ∀ a ∈ aliases, Clean a) (t : Text) :
    (ofText t).Reports aliases
      ((ofText t).outerLinks.filterMap (media? (ofText t) aliases)) where
  outermost := map_media? ha t
  increasing := by
    refine (pairwise_outerLinks t).filterMap _ fun l l' h m hm m' hm' => ?_
    rwa [bytes_of_media? hm, bytes_of_media? hm']
  boundaries := by
    intro m hm
    obtain ⟨l, hl, hm⟩ := List.mem_filterMap.mp hm
    obtain ⟨_, _, _, _, _, _, _, hp⟩ := exists_placed_of_mem hl
    rw [bytes_of_media? hm]
    exact ⟨Nat.lt_add_of_pos_right hp.byteLength_pos, hp.isBoundary_start, hp.isBoundary_stop⟩
  spans := by
    intro m hm
    obtain ⟨l, hl, hm⟩ := List.mem_filterMap.mp hm
    obtain ⟨_, _, _, _, _, _, _, hp⟩ := exists_placed_of_mem hl
    obtain ⟨a, -, rfl⟩ := Option.map_eq_some_iff.mp hm
    have hle : l.bytes.start ≤ l.bytes.stop := Nat.le_add_right _ _
    exact ⟨bytesOf_spanOf hle hp.isBoundary_start hp.isBoundary_stop,
      slice_spanOf hle hp.isBoundary_start hp.isBoundary_stop⟩

/-- Every outermost link that begins with an alias is reported, and nothing else; the links without
alternative text are reported as they stand in the document. -/
theorem reports_mediaLinks {aliases : List Text} (ha : ∀ a ∈ aliases, Clean a) (t : Text) :
    ∃ links, (ofText t).mediaLinks aliases = .ok links ∧ (ofText t).Reports aliases links ∧
      ∀ names, (ofText t).missingAlt aliases names =
        .ok ((links.filter fun l => !l.params.any (isAltParam names)).map fun l =>
          ⟨(ofText t).slice l.span, l.file, l.span⟩) := by
  have hreports := reports_media? ha t
  refine ⟨_, mediaLinks_eq ha t, hreports, fun names => ?_⟩
  rw [missingAlt, mediaLinks_eq ha t]
  apply congrArg Except.ok
  apply List.map_congr_left
  intro m hm
  rw [(hreports.spans m (List.mem_of_mem_filter hm)).2]

/-- A stray closer and a template that is never closed; then an image, one in a comment, one with
another inside, one whose colon carries a mark, and one that is never closed. -/
def brokenArticle : Text :=
  ("]]\x7b\x7b[[File:A|b]]<!--[[File:B]]-->[[File:C|[[File:D]]|alt=e]]" ++
    "[[File:\u0301F]][[File:G").toList

theorem reports_mediaLinks_brokenArticle : ∃ links,
    (ofText brokenArticle).mediaLinks ["File".toList] = .ok links ∧
    links.map (fun l => (l.bytes, l.aliasUsed)) =
      [(⟨4, 16⟩, "File".toList), (⟨33, 60⟩, "File".toList)] ∧
    (ofText brokenArticle).missingAlt ["File".toList] ["alt".toList] =
      .ok [⟨"[[File:A|b]]".toList, "File:A".toList, ⟨4, 12⟩⟩] := by
  have ha : ∀ a ∈ ["File".toList], Clean a := by decide
  have hfound : (ofText brokenArticle).mediaLinks ["File".toList] =
      .ok [⟨"File".toList, "A".toList, ["b".toList], ⟨4, 16⟩, ⟨4, 12⟩⟩,
        ⟨"File".toList, "C".toList, ["[[File:D]]", "alt=e"].map String.toList, ⟨33, 60⟩,
          ⟨33, 27⟩⟩] := by decide +kernel
  obtain ⟨links, hlinks, hreports, hmissing⟩ := reports_mediaLinks ha brokenArticle
  obtain rfl : links = _ := Except.ok.inj (hlinks.symm.trans hfound)
  exact ⟨_, hfound, hreports.outermost.trans (by decide +kernel),
    (hmissing _).trans (congrArg Except.ok (by decide +kernel))⟩

end Document

end Wikitext
