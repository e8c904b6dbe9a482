import Wikitext.Proofs.StepRanges

/-! The leading block is the longest run of items that its document opens with. Whether an item
stands at a place is said by a scan that starts there, so the run is determined by the text, and the
leading block is that run. All its ends are cluster boundaries, so nothing is lost when they are
reported in clusters. -/

namespace Wikitext

open Step LeadingItem

namespace Text

/-- Line feeds, each with a carriage return before it or without. -/
inductive Breaks : Text → Prop
  | nil : Breaks []
  | feed {t : Text} (h : Breaks t) : Breaks ('\n' :: t)
  | pair {t : Text} (h : Breaks t) : Breaks ('\r' :: '\n' :: t)

/-- The text does not begin with a line break. -/
def Unbroken (t : Text) : Prop :=
  ¬ ['\n'] <+: t ∧ ¬ ['\r', '\n'] <+: t

theorem Breaks.eq_of_unbroken {u v r s : Text} (hu : Breaks u) (hv : Breaks v)
    (he : u ++ r = v ++ s) (hr : r.Unbroken) (hs : s.Unbroken) : u = v := by
  induction hu generalizing v with
  | nil =>
    cases hv with
    | nil => rfl
    | feed => exact absurd ⟨_, he.symm⟩ hr.1
    | pair => exact absurd ⟨_, he.symm⟩ hr.2
  | feed _ ih =>
    cases hv with
    | nil => exact absurd ⟨_, he⟩ hs.1
    | feed h => rw [ih h (List.cons.inj he).2]
    | pair => exact absurd (List.cons.inj he).1 (by decide)
  | pair _ ih =>
    cases hv with
    | nil => exact absurd ⟨_, he⟩ hs.2
    | feed => exact absurd (List.cons.inj he).1 (by decide)
    | pair h => rw [ih h (List.cons.inj (List.cons.inj he).2).2]

end Text

theorem Newlines.breaks {x : List Cell} (h : Newlines x) : (Cell.chars x).Breaks := by
  induction h with
  | nil => exact .nil
  | feed ha _ ih =>
    rw [Cell.chars_cons, ha]
    exact .feed ih
  | pair ha hb _ ih =>
    rw [Cell.chars_cons, Cell.chars_cons, ha, hb]
    exact .pair ih

namespace Step

theorem exists_of_scanUntil? {stop : Step → Bool} {d : Depths} {cells : List Cell}
    {ss : List Step} (h : scanUntil? stop d cells = some ss) : ∃ us c rest, ss = us ++ [c] ∧
      scanFrom d cells = us ++ c :: rest ∧ (∀ s ∈ us, stop s = false) ∧ stop c = true := by
  induction ss generalizing d cells with
  | nil =>
    rw [scanUntil?_eq] at h
    split at h
    · cases h
    · split at h
      · cases h
      · simp at h
  | cons s ss ih =>
    rw [scanUntil?_eq] at h
    split at h
    · cases h
    · rename_i a t hn
      split at h
      · rename_i hs
        obtain ⟨rfl, rfl⟩ := List.cons.inj (Option.some.inj h)
        refine ⟨[], a, scanFrom t.1 t.2, rfl, ?_, by simp, hs⟩
        rw [scanFrom_eq, hn]
        rfl
      · rename_i hs
        obtain ⟨ms, hm, he⟩ := Option.map_eq_some_iff.mp h
        obtain ⟨rfl, rfl⟩ := List.cons.inj he
        obtain ⟨us, c, rest, rfl, hscan, hus, hc⟩ := ih hm
        refine ⟨a :: us, c, rest, rfl, ?_, fun b hb => ?_, hc⟩
        · rw [scanFrom_eq, hn]
          exact congrArg (a :: ·) hscan
        · rcases List.mem_cons.mp hb with rfl | hb
          · simpa using hs
          · exact hus b hb

theorem stop_of_scanUntil?_eq_none {stop : Step → Bool} {d : Depths} {cells : List Cell}
    (h : scanUntil? stop d cells = none) : ∀ s ∈ scanFrom d cells, stop s = false := by
  generalize hl : scanFrom d cells = l
  induction l generalizing d cells with
  | nil => simp
  | cons a l ih =>
    obtain ⟨e, y, hn, hrest⟩ := exists_of_scanFrom_cons hl
    rw [scanUntil?_eq, hn] at h
    simp only at h
    split at h
    · cases h
    · rename_i hs
      intro s hmem
      rcases List.mem_cons.mp hmem with rfl | hmem
      · simpa using hs
      · exact ih (Option.map_eq_none_iff.mp h) hrest s hmem

theorem template_of_next? {d e : Depths} {cells y : List Cell} {s : Step}
    (h : next? (d, cells) = some (s, (e, y))) : (s.kind = .templateOpen → e.template ≠ 0) ∧
      (d.template ≠ 0 → e.template = 0 → s.kind = .templateClose) := by
  rcases (depths_of_next? h).2 with ⟨hk, rfl⟩ | ⟨k, hk⟩
  · exact ⟨fun ho => by simp [hk] at ho, fun hd he => absurd he hd⟩
  · have hafter := d.template_after k
    simp only [hk] at hafter
    rcases hafter with ⟨-, he⟩ | ⟨hc, -⟩ | ⟨hno, -, he⟩
    · simp [he]
    · simp [hc]
    · exact ⟨fun ho => absurd ho hno, fun hd hz => absurd (he.symm.trans hz) hd⟩

/-- Behind an open template some template is open until a step closes the last one. -/
theorem template_ne_zero {d : Depths} {cells : List Cell} {us rest : List Step}
    (h : scanFrom d cells = us ++ rest) (hd : d.template ≠ 0)
    (hus : ∀ s ∈ us, LeadingItem.closes s = false) : ∀ s ∈ us, s.depths.template ≠ 0 := by
  refine forall_of_scanFrom (P := (·.template ≠ 0)) (p := (LeadingItem.closes · = false))
    (fun {d e cells y s} hn hd hs => ?_) h hd hus
  have hdepths := (depths_of_next? hn).1
  rw [hdepths, and_self]
  intro hz
  simp [LeadingItem.closes, (template_of_next? hn).2 hd hz, hdepths, hz] at hs

end Step

namespace Document

/-- From the byte `start` to the byte `stop` stands an item: the scan that starts there begins with
a comment, or with a `{{` and a `}}` behind it which is the first step to leave no template open. -/
inductive ItemAt (d : Document) (start : Nat) : Nat → Prop
  | comment {r : ByteRange} {s : Step} {ps : List (ByteRange × Step)}
      (h : d.stepsFrom start = (r, s) :: ps) (hr : r.start = start) (hs : s.kind = .comment) :
      ItemAt d start r.stop
  | template {r r' : ByteRange} {s c : Step} {ps : List (ByteRange × Step)}
      (h : d.stepsFrom start = (r, s) :: ps) (hr : r.start = start) (hs : s.kind = .templateOpen)
      (hc : ps.find? (·.2.depths.template = 0) = some (r', c)) (hk : c.kind = .templateClose) :
      ItemAt d start r'.stop

/-- The items with which the text goes on from the byte `p`, the bytes that they cover without the
white space around them, and the byte at which they stop because no item follows. -/
inductive Leads (d : Document) : Nat → List LeadingItem → List ByteRange → Nat → Prop
  | done {p : Nat} (h : ∀ stop, ¬ d.ItemAt
      (p + Text.byteLength ((d.text.dropBytes p).takeWhile isWhite)) stop) : Leads d p [] [] p
  | item {p stop : Nat} {i : LeadingItem} {rest : Text} {is : List LeadingItem}
      {rs : List ByteRange} (htext : d.text.dropBytes p = i.text ++ rest)
      (hblank : ∀ c ∈ i.blank, isWhite c = true)
      (hbody : d.ItemAt (p + i.blank.byteLength) (p + i.blank.byteLength + i.body.byteLength))
      (hbreaks : i.newlines.Breaks) (hrest : rest.Unbroken)
      (h : Leads d (p + i.text.byteLength) is rs stop) :
      Leads d p (i :: is)
        (⟨p + i.blank.byteLength, p + i.blank.byteLength + i.body.byteLength⟩ :: rs) stop

theorem ItemAt.stop_unique {d : Document} {start stop stop' : Nat} (h : d.ItemAt start stop)
    (h' : d.ItemAt start stop') : stop = stop' := by
  cases h with
  | comment h _ hs =>
    cases h' with
    | comment h' =>
      obtain ⟨he, -⟩ := List.cons.inj (h.symm.trans h')
      rw [(Prod.mk.inj he).1]
    | template h' _ hs' =>
      obtain ⟨he, -⟩ := List.cons.inj (h.symm.trans h')
      rw [(Prod.mk.inj he).2, hs'] at hs
      cases hs
  | template h _ hs hc =>
    cases h' with
    | comment h' _ hs' =>
      obtain ⟨he, -⟩ := List.cons.inj (h.symm.trans h')
      rw [(Prod.mk.inj he).2, hs'] at hs
      cases hs
    | template h' _ _ hc' =>
      obtain ⟨-, rfl⟩ := List.cons.inj (h.symm.trans h')
      obtain ⟨rfl, -⟩ := Prod.mk.inj (Option.some.inj (hc.symm.trans hc'))
      rfl

section

variable {t : Text} {x y : List Cell}

theorem itemAt_of_bodySteps? {steps : List Step} (h : Cell.ofText t = x ++ y)
    (hb : bodySteps? y = some steps) : (ofText t).ItemAt (Cell.chars x).byteLength
      ((Cell.chars x).byteLength + (textOf steps).byteLength) := by
  obtain ⟨hopens, -⟩ := exists_opener_of_body hb
  obtain ⟨z, hz, -⟩ := exists_behind_body hb
  have hy : Cell.atBoundary y = true := by
    rw [hz, Cell.atBoundary_append (bodySteps?_cells_ne_nil hb)]
    exact hopens
  have hsteps := stepsFrom_cut h hy
  rw [scan, scanFrom_eq] at hsteps
  simp only [bodySteps?] at hb
  split at hb
  · cases hb
  · rename_i s e rest hn
    simp only [hn] at hsteps
    split at hb
    · rename_i hk
      obtain rfl := Option.some.inj hb
      rw [textOf_cons, textOf_nil, List.append_nil]
      exact .comment hsteps rfl hk
    · rename_i hk
      obtain ⟨more, hm, rfl⟩ := Option.map_eq_some_iff.mp hb
      obtain ⟨us, c, behind, rfl, hscan, hus, hc⟩ := exists_of_scanUntil? hm
      have hopen := (template_of_next? hn).1
      have hne := template_ne_zero hscan (hopen hk) hus
      simp only [LeadingItem.closes, Bool.and_eq_true, decide_eq_true_eq] at hc
      rw [hscan, place] at hsteps
      have hfind := ItemAt.template hsteps rfl hk
        (find?_place (p := (·.depths.template = 0)) (fun s hs => by simpa using hne s hs)
          (by simpa using hc.2) behind) hc.1
      rw [textOf_cons, textOf_append, textOf_cons, textOf_nil, List.append_nil,
        Text.byteLength_append, Text.byteLength_append]
      simpa only [Nat.add_assoc] using hfind
    · cases hb

theorem exists_of_stepsFrom_cons {r : ByteRange} {s : Step} {ps : List (ByteRange × Step)}
    (h : Cell.ofText t = x ++ y)
    (hsteps : (ofText t).stepsFrom (Cell.chars x).byteLength = (r, s) :: ps)
    (hr : r.start = (Cell.chars x).byteLength) : ∃ e rest, next? (.zero, y) = some (s, (e, rest)) ∧
      ps = place r.stop (scanFrom e rest) := by
  simp only [stepsFrom] at hsteps
  generalize (ofText t).byteAt _ = start at hsteps
  rw [scan, scanFrom_eq] at hsteps
  cases hn : next? (.zero, (ofText t).cellsFrom start) with
  | none => simp [hn, place] at hsteps
  | some p =>
    obtain ⟨a, e, rest⟩ := p
    simp only [hn, place, List.cons.injEq, Prod.mk.injEq] at hsteps
    obtain ⟨⟨rfl, rfl⟩, rfl⟩ := hsteps
    obtain rfl : start = (Cell.chars x).byteLength := hr
    rw [cellsFrom_append h] at hn
    exact ⟨e, rest, hn, rfl⟩

theorem exists_bodySteps? {stop : Nat} (h : Cell.ofText t = x ++ y)
    (hi : (ofText t).ItemAt (Cell.chars x).byteLength stop) : ∃ steps,
      bodySteps? y = some steps ∧ stop = (Cell.chars x).byteLength + (textOf steps).byteLength := by
  suffices hsome : ∃ steps, bodySteps? y = some steps by
    obtain ⟨steps, hb⟩ := hsome
    exact ⟨steps, hb, hi.stop_unique (itemAt_of_bodySteps? h hb)⟩
  cases hi with
  | @comment r s _ hsteps hr hs =>
    obtain ⟨e, rest, hn, -⟩ := exists_of_stepsFrom_cons h hsteps hr
    exact ⟨[s], by simp [bodySteps?, hn, hs]⟩
  | @template r r' s c _ hsteps hr hs hc hk =>
    obtain ⟨e, rest, hn, rfl⟩ := exists_of_stepsFrom_cons h hsteps hr
    cases hm : scanUntil? LeadingItem.closes e rest with
    | some more => exact ⟨s :: more, by simp [bodySteps?, hn, hs, hm]⟩
    | none =>
      obtain ⟨us, vs, hscan, -⟩ := exists_of_mem_place (List.mem_of_find?_eq_some hc)
      have hno := stop_of_scanUntil?_eq_none hm c (by simp [hscan])
      have hz := List.find?_some hc
      simp only [decide_eq_true_eq] at hz
      simp [LeadingItem.closes, hk, hz] at hno

theorem ItemAt.exists_cells {start stop : Nat} (h : (ofText t).ItemAt start stop) :
    ∃ x y steps, Cell.ofText t = x ++ y ∧ (Cell.chars x).byteLength = start ∧
      bodySteps? y = some steps ∧ stop = start + (textOf steps).byteLength := by
  have hmem : ∃ r s, (r, s) ∈ (ofText t).stepsFrom start ∧ r.start = start := by
    cases h with
    | comment h hr => exact ⟨_, _, h ▸ List.mem_cons_self, hr⟩
    | template h hr => exact ⟨_, _, h ▸ List.mem_cons_self, hr⟩
  obtain ⟨r, s, hmem, rfl⟩ := hmem
  obtain ⟨x, y, -, -, hxy, hx, -⟩ := exists_of_mem_stepsFrom hmem
  rw [← hx] at h ⊢
  obtain ⟨steps, hb, hstop⟩ := exists_bodySteps? hxy h
  exact ⟨x, y, steps, hxy, rfl, hb, hstop⟩

theorem ItemAt.isBoundary {start stop : Nat} (h : (ofText t).ItemAt start stop) :
    (ofText t).isBoundary start = true ∧ (ofText t).isBoundary stop = true := by
  obtain ⟨x, y, steps, hxy, rfl, hb, rfl⟩ := h.exists_cells
  obtain ⟨z, rfl, hz⟩ := exists_behind_body hb
  constructor
  · rw [isBoundary_cut hxy, Cell.atBoundary_append (bodySteps?_cells_ne_nil hb)]
    exact (exists_opener_of_body hb).1
  · have hcut : Cell.ofText t = (x ++ steps.flatMap (·.cells)) ++ z := by
      rw [hxy, List.append_assoc]
    have hbehind := isBoundary_cut hcut
    rw [Cell.chars_append, Text.byteLength_append, chars_flatMap_cells] at hbehind
    rw [hbehind, hz]

theorem ItemAt.takeWhile_eq {head blank rest : Text} {stop : Nat}
    (ht : t = head ++ (blank ++ rest)) (hblank : ∀ c ∈ blank, isWhite c = true)
    (h : (ofText t).ItemAt (head.byteLength + blank.byteLength) stop) :
    (t.dropBytes head.byteLength).takeWhile isWhite = blank := by
  obtain ⟨x, y, steps, hxy, hx, hb, -⟩ := h.exists_cells
  have hchars : Cell.chars x ++ Cell.chars y = (head ++ blank) ++ rest := by
    rw [← Cell.chars_append, ← hxy, Cell.chars_ofText, ht, List.append_assoc]
  obtain ⟨-, hy⟩ := Text.append_inj_of_byteLength hchars (by rw [hx, Text.byteLength_append])
  obtain ⟨z, rfl, -⟩ := exists_behind_body hb
  obtain ⟨a, u, hcons, -, ha⟩ := exists_cons_of_body hb
  rw [hcons, List.cons_append, Cell.chars_cons] at hy
  rw [ht, Text.dropBytes_append, List.takeWhile_append_of_pos hblank, ← hy,
    List.takeWhile_cons_of_neg (by simp [ha]), List.append_nil]

theorem ItemAt.blank_eq {head tail rest : Text} {i : LeadingItem} {p stop : Nat}
    (ht : t = head ++ tail) (hp : head.byteLength = p)
    (htext : (ofText t).text.dropBytes p = i.text ++ rest)
    (hblank : ∀ c ∈ i.blank, isWhite c = true)
    (h : (ofText t).ItemAt (p + i.blank.byteLength) stop) :
    tail = i.text ++ rest ∧ ((ofText t).text.dropBytes p).takeWhile isWhite = i.blank := by
  subst hp
  have htail : tail = i.text ++ rest := by
    rwa [text_ofText, ht, Text.dropBytes_append] at htext
  refine ⟨htail, ?_⟩
  rw [text_ofText]
  have hall : t = head ++ (i.blank ++ (i.body ++ (i.newlines ++ rest))) := by
    rw [ht, htail]
    simp only [LeadingItem.text, List.append_assoc]
  exact h.takeWhile_eq hall hblank

end

/-- The text determines how many items follow and what they are. -/
theorem Leads.unique {t head tail : Text} {items items' : List LeadingItem}
    {ranges ranges' : List ByteRange} {stop stop' : Nat} (ht : t = head ++ tail)
    (h : (ofText t).Leads head.byteLength items ranges stop)
    (h' : (ofText t).Leads head.byteLength items' ranges' stop') :
    items = items' ∧ ranges = ranges' ∧ stop = stop' := by
  generalize hp : head.byteLength = p at h h'
  induction h generalizing head tail items' ranges' with
  | done hno =>
    cases h' with
    | done => exact ⟨rfl, rfl, rfl⟩
    | item htext hblank hbody =>
      obtain ⟨-, hwhite⟩ := hbody.blank_eq ht hp htext hblank
      rw [hwhite] at hno
      exact absurd hbody (hno _)
  | @item p stop i rest is rs htext hblank hbody hbreaks hrest _ ih =>
    obtain ⟨rfl, hwhite⟩ := hbody.blank_eq ht hp htext hblank
    cases h' with
    | done hno =>
      rw [hwhite] at hno
      exact absurd hbody (hno _)
    | @item _ _ i' rest' _ _ htext' hblank' hbody' hbreaks' hrest' h' =>
      obtain ⟨he, hwhite'⟩ := hbody'.blank_eq ht hp htext' hblank'
      obtain ⟨blank, body, newlines⟩ := i
      obtain ⟨blank', body', newlines'⟩ := i'
      obtain rfl : blank = blank' := hwhite.symm.trans hwhite'
      have hlen := hbody.stop_unique hbody'
      simp only [LeadingItem.text, List.append_assoc, List.append_cancel_left_eq] at he
      obtain ⟨rfl, hfeeds⟩ := Text.append_inj_of_byteLength he (by
        simp only at hlen
        omega)
      obtain rfl : newlines = newlines' := hbreaks.eq_of_unbroken hbreaks' hfeeds hrest hrest'
      obtain ⟨rfl, rfl, rfl⟩ := ih (ht.trans (List.append_assoc _ _ _).symm)
        (by rw [Text.byteLength_append, hp]) h'
      exact ⟨rfl, rfl, rfl⟩

end Document

namespace LeadingBlock

section

variable {t : Text} {w c : List Cell}

theorem not_itemAt_of_next? (ht : Cell.ofText t = w ++ c) (hi : LeadingItem.next? c = none)
    (stop : Nat) : ¬ (Document.ofText t).ItemAt ((Cell.chars w).byteLength +
      Text.byteLength (((Document.ofText t).text.dropBytes (Cell.chars w).byteLength).takeWhile
        isWhite)) stop := by
  intro hitem
  have htext : t = Cell.chars w ++ Cell.chars c := by
    rw [← Cell.chars_append, ← ht, Cell.chars_ofText]
  have hcut : Cell.ofText t =
      (w ++ c.takeWhile (isWhite ·.char)) ++ c.dropWhile (isWhite ·.char) := by
    rw [ht, List.append_assoc, List.takeWhile_append_dropWhile]
  have hblank : (Cell.chars c).takeWhile isWhite =
      Cell.chars (c.takeWhile (isWhite ·.char)) := List.takeWhile_map ..
  have hdrop : (Document.ofText t).text.dropBytes (Cell.chars w).byteLength = Cell.chars c := by
    rw [Document.text_ofText, htext, Text.dropBytes_append]
  rw [hdrop, hblank, ← Text.byteLength_append, ← Cell.chars_append] at hitem
  obtain ⟨steps, hb, -⟩ := Document.exists_bodySteps? hcut hitem
  simp [LeadingItem.next?, hb] at hi

theorem exists_itemAt_of_next? (ht : Cell.ofText t = w ++ c) {i : LeadingItem}
    {rest : List Cell} (hi : LeadingItem.next? c = some (i, rest)) : ∃ x, c = x ++ rest ∧
      Cell.chars x = i.text ∧ Cell.atBoundary rest = true ∧
      (∀ a ∈ i.blank, isWhite a = true) ∧
      (Document.ofText t).ItemAt ((Cell.chars w).byteLength + i.blank.byteLength)
        ((Cell.chars w).byteLength + i.blank.byteLength + i.body.byteLength) ∧
      i.newlines.Breaks ∧ (Cell.chars rest).Unbroken := by
  obtain ⟨blank, steps, feeds, rfl, hparts, hb, hfeed, hpair⟩ := exists_parts hi
  obtain ⟨rfl, hwhite, hnewlines⟩ := hparts
  obtain ⟨z, hz, hbehind⟩ := exists_behind_body hb
  rw [List.append_cancel_left_eq] at hz
  subst hz
  have hcut : Cell.ofText t = (w ++ blank) ++ (steps.flatMap (·.cells) ++ (feeds ++ rest)) := by
    rw [ht, List.append_assoc]
  have hitem := Document.itemAt_of_bodySteps? hcut hb
  rw [Cell.chars_append, Text.byteLength_append, ← chars_flatMap_cells] at hitem
  refine ⟨blank ++ (steps.flatMap (·.cells) ++ feeds), by simp only [List.append_assoc], ?_, ?_,
    ?_, hitem, hnewlines.breaks, hfeed, hpair⟩
  · simp only [LeadingItem.text, Cell.chars_append, List.append_assoc]
  · apply hnewlines.atBoundary_behind (t := t) (w := w ++ (blank ++ steps.flatMap (·.cells))) _
      hbehind
    rw [ht]
    simp only [List.append_assoc]
  · intro a ha
    obtain ⟨b, hb, rfl⟩ := List.mem_map.mp ha
    exact hwhite b hb

end

theorem leads_itemsOf {t : Text} {w c : List Cell} (ht : Cell.ofText t = w ++ c)
    (hc : Cell.atBoundary c = true) :
    (Document.ofText t).Leads (Cell.chars w).byteLength (itemsOf c)
      (bodyRanges (Cell.chars w).byteLength (itemsOf c))
      ((Cell.chars w).byteLength + Text.byteLength ((itemsOf c).flatMap LeadingItem.text)) ∧
    (Document.ofText t).isBoundary
      ((Cell.chars w).byteLength + Text.byteLength ((itemsOf c).flatMap LeadingItem.text)) =
        true := by
  generalize hn : c.length = n
  induction n using Nat.strongRecOn generalizing w c with
  | ind n ih =>
    rw [itemsOf_eq]
    cases hi : LeadingItem.next? c with
    | none =>
      refine ⟨.done (not_itemAt_of_next? ht hi), ?_⟩
      simpa [Document.isBoundary_cut ht] using hc
    | some p =>
      obtain ⟨i, rest⟩ := p
      have hlt : rest.length < n := hn ▸ LeadingItem.next?_shrinks _ _ _ hi
      obtain ⟨x, rfl, hx, hrest, hblank, hitem, hbreaks, hunbroken⟩ :=
        exists_itemAt_of_next? ht hi
      have hcut : Cell.ofText t = (w ++ x) ++ rest := by rw [ht, List.append_assoc]
      have htext : t = Cell.chars w ++ (i.text ++ Cell.chars rest) := by
        rw [← hx, ← Cell.chars_append, ← Cell.chars_append, ← ht, Cell.chars_ofText]
      obtain ⟨hleads, hstop⟩ := ih _ hlt hcut hrest rfl
      rw [Cell.chars_append, Text.byteLength_append, hx] at hleads hstop
      simp only [List.flatMap_cons, bodyRanges, Text.byteLength_append]
      rw [← Nat.add_assoc]
      refine ⟨.item ?_ hblank hitem hbreaks hunbroken hleads, hstop⟩
      rw [Document.text_ofText]
      conv => lhs; rw [htext, Text.dropBytes_append]

theorem byteLength_eq_zero_iff {cells : List Cell} :
    Text.byteLength ((itemsOf cells).flatMap LeadingItem.text) = 0 ↔ itemsOf cells = [] := by
  constructor
  · intro h
    have hnil := Text.eq_nil_of_byteLength_eq_zero h
    rw [itemsOf_eq] at hnil ⊢
    split at hnil
    · rfl
    · rename_i i rest hi
      obtain ⟨blank, steps, feeds, -, hparts, hb, -⟩ := exists_parts hi
      have hbody := (List.append_eq_nil_iff.mp (List.append_eq_nil_iff.mp hnil).1).1
      rw [hparts.item] at hbody
      have hne := bodySteps?_cells_ne_nil hb
      simp [Cell.chars, hne] at hbody
  · intro h
    rw [h]
    rfl

end LeadingBlock

/-- What stands behind a run of items does not begin with a line break. -/
theorem Document.Leads.exists_rest {t head tail : Text} {stop : Nat} {items : List LeadingItem}
    {ranges : List ByteRange} (ht : t = head ++ tail)
    (h : (ofText t).Leads head.byteLength items ranges stop) :
    ∃ rest, tail = items.flatMap LeadingItem.text ++ rest ∧ (items ≠ [] → rest.Unbroken) := by
  generalize hp : head.byteLength = p at h
  induction h generalizing head tail with
  | done => exact ⟨tail, rfl, fun hne => absurd rfl hne⟩
  | @item _ _ i behind is _ htext _ _ _ hbehind _ ih =>
    rw [text_ofText, ht, ← hp, Text.dropBytes_append] at htext
    obtain ⟨rest, hrest, hunbroken⟩ := ih (ht.trans (by rw [htext, List.append_assoc]))
      (by rw [Text.byteLength_append, hp])
    refine ⟨rest, by rw [htext, hrest, List.flatMap_cons, List.append_assoc], fun _ => ?_⟩
    by_cases hnil : is = []
    · rwa [hrest, hnil] at hbehind
    · exact hunbroken hnil

theorem LeadingBlock.text_append_rest (t : Text) :
    (ofDocument (.ofText t)).text ++ (ofDocument (.ofText t)).rest = t := by
  obtain ⟨hleads, -⟩ := leads_itemsOf (t := t) (w := []) rfl (Cell.atBoundary_ofText t)
  obtain ⟨rest, hrest, -⟩ := hleads.exists_rest (show t = [] ++ t from rfl)
  change t = (ofDocument (.ofText t)).text ++ rest at hrest
  change (ofDocument (.ofText t)).text ++ t.drop (ofDocument (.ofText t)).text.length = t
  generalize (ofDocument (.ofText t)).text = head at hrest ⊢
  rw [hrest, List.drop_left]

theorem Document.Leads.isBoundary {t : Text} {p stop : Nat} {items : List LeadingItem}
    {ranges : List ByteRange} (h : (ofText t).Leads p items ranges stop) : ∀ r ∈ ranges,
      (ofText t).isBoundary r.start = true ∧ (ofText t).isBoundary r.stop = true := by
  induction h with
  | done => simp
  | item _ _ hbody _ _ _ ih =>
    intro r hr
    rcases List.mem_cons.mp hr with rfl | hr
    · exact hbody.isBoundary
    · exact ih r hr

/-- The leading block is the one run of items with which the text opens: its items, their bytes and
its end. The clusters that are reported for them stand at these very bytes. -/
theorem leads_leadingBlock (t : Text) :
    let d := Document.ofText t
    let b := LeadingBlock.ofDocument d
    let ranges := LeadingBlock.bodyRanges 0 b.items
    (∀ items ranges' stop, d.Leads 0 items ranges' stop ↔
      items = b.items ∧ ranges' = ranges ∧ stop = b.text.byteLength) ∧
    t = b.text ++ b.rest ∧ (b.text.byteLength = 0 ↔ b.items = []) ∧
    (∀ r ∈ ranges, d.isBoundary r.start = true ∧ d.isBoundary r.stop = true) ∧
    d.isBoundary b.text.byteLength = true ∧
    d.byteAt d.leadingEnd = b.text.byteLength ∧
    d.leadingSpans.map (fun p => ⟨d.byteAt p.1, d.byteAt p.2⟩) = ranges := by
  intro d b ranges
  obtain ⟨hleads, hstop⟩ := LeadingBlock.leads_itemsOf (t := t) (w := []) (c := Cell.ofText t) rfl
    (Cell.atBoundary_ofText t)
  change d.Leads 0 b.items ranges (0 + b.text.byteLength) at hleads
  change d.isBoundary (0 + b.text.byteLength) = true at hstop
  rw [Nat.zero_add] at hleads hstop
  have hranges := hleads.isBoundary
  refine ⟨fun items ranges' stop => ⟨fun h => ?_, ?_⟩, ?_, LeadingBlock.byteLength_eq_zero_iff,
    hranges, hstop, Document.byteAt_clusterAt hstop, ?_⟩
  · exact h.unique (show t = [] ++ t from rfl) hleads
  · rintro ⟨rfl, rfl, rfl⟩
    exact hleads
  · exact (LeadingBlock.text_append_rest t).symm
  · rw [Document.leadingSpans, List.map_map]
    conv => rhs; rw [← List.map_id ranges]
    apply List.map_congr_left
    intro r hr
    obtain ⟨hs, he⟩ := hranges r hr
    simp only [Function.comp_apply, id_eq]
    rw [Document.byteAt_clusterAt hs, Document.byteAt_clusterAt he]

end Wikitext
