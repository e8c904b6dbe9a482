import Wikitext.Link.Outermost
import Wikitext.Proofs.Scanning

/-! The outermost links among steps that leave no link open are the same whatever steps follow, and
those of a document are found stretch by stretch. A link is what its title and its parameters
make it. -/

namespace Wikitext

namespace Step

def textOf (ss : List Step) : Text :=
  ss.flatMap text

@[simp]
theorem textOf_nil : textOf [] = [] := rfl

@[simp]
theorem textOf_cons (s : Step) (ss : List Step) : textOf (s :: ss) = s.text ++ textOf ss := rfl

@[simp]
theorem textOf_append (ss ss' : List Step) : textOf (ss ++ ss') = textOf ss ++ textOf ss' :=
  List.flatMap_append

theorem chars_flatMap_cells (ss : List Step) : Cell.chars (ss.flatMap (·.cells)) = textOf ss := by
  induction ss with
  | nil => rfl
  | cons s ss ih => rw [List.flatMap_cons, Cell.chars_append, ih, textOf_cons, text]

theorem Scans.textOf_eq {d e : Depths} {x z : List Cell} {ss : List Step}
    (h : Scans d x z ss e) : textOf ss = Cell.chars x := by
  rw [← h.flatMap_cells, chars_flatMap_cells]

end Step

open Step

namespace OuterLink

theorem opens_iff {s : Step} : opens s = true ↔ s.kind = .linkOpen ∧ s.depths.link = 1 := by
  simp [opens]

theorem closes_iff {s : Step} : closes s = true ↔ s.kind = .linkClose ∧ s.depths.link = 0 := by
  simp [closes]

theorem separates_iff {template : Nat} {s : Step} : separates template s = true ↔
    s.kind = .pipe ∧ s.depths.link = 1 ∧ s.depths.template = template := by
  simp [separates, and_assoc]

section Cutting

variable {cut : Step → Bool}

/-- The parts between the steps that satisfy `cut`; there is always one. -/
def segments (cut : Step → Bool) (ss : List Step) : List (List Step) :=
  (splitAt cut ss).1 :: (splitAt cut ss).2

theorem splitAt_cons (s : Step) (ss : List Step) :
    splitAt cut (s :: ss) = if cut s then ([], segments cut ss)
      else (s :: (splitAt cut ss).1, (splitAt cut ss).2) := rfl

theorem segments_cons_cut {s : Step} (hs : cut s = true) (ss : List Step) :
    segments cut (s :: ss) = [] :: segments cut ss := by
  rw [segments, splitAt_cons, if_pos hs]

theorem segments_cons_keep {s : Step} (hs : cut s = false) (ss : List Step) :
    segments cut (s :: ss) = (s :: (splitAt cut ss).1) :: (splitAt cut ss).2 := by
  rw [segments, splitAt_cons, if_neg (by simp [hs])]

theorem segments_of_keep {u : List Step} (hu : ∀ s ∈ u, cut s = false) :
    segments cut u = [u] := by
  induction u with
  | nil => rfl
  | cons s u ih =>
    obtain ⟨h1, h2⟩ := List.cons.inj (ih fun s hs => hu s (List.mem_cons_of_mem _ hs))
    rw [segments_cons_keep (hu s List.mem_cons_self), h1, h2]

/-- Where two stretches meet, the last segment of one and the first of the other are one. -/
theorem segments_append {u v : List Step} {xs ys : List (List Step)} {last first : List Step}
    (hu : segments cut u = xs ++ [last]) (hv : segments cut v = first :: ys) :
    segments cut (u ++ v) = xs ++ (last ++ first) :: ys := by
  induction u generalizing xs last with
  | nil =>
    cases xs with
    | nil =>
      obtain rfl : [] = last := (List.cons.inj hu).1
      exact hv
    | cons c xs => cases xs <;> cases hu
  | cons a u ih =>
    by_cases ha : cut a = true
    · rw [segments_cons_cut ha] at hu
      cases xs with
      | nil => cases hu
      | cons c xs =>
        obtain ⟨rfl, h2⟩ := List.cons.inj hu
        rw [List.cons_append, segments_cons_cut ha, ih h2]
        rfl
    · have ha' : cut a = false := by simpa using ha
      rw [segments_cons_keep ha'] at hu
      rw [List.cons_append, segments_cons_keep ha']
      cases xs with
      | nil =>
        obtain ⟨rfl, h2⟩ := List.cons.inj hu
        have hu' : segments cut u = [] ++ [(splitAt cut u).1] := congrArg _ h2
        obtain ⟨h3, h4⟩ := List.cons.inj (ih hu')
        rw [h3, h4]
        rfl
      | cons c xs =>
        obtain ⟨rfl, h2⟩ := List.cons.inj hu
        have hu' : segments cut u = ((splitAt cut u).1 :: xs) ++ [last] := congrArg _ h2
        obtain ⟨h3, h4⟩ := List.cons.inj (ih hu')
        rw [h3, h4]
        rfl

theorem exists_segments_eq_append (cut : Step → Bool) (ss : List Step) :
    ∃ xs last, segments cut ss = xs ++ [last] :=
  ⟨_, _, (List.dropLast_append_getLast (List.cons_ne_nil _ _)).symm⟩

theorem segments_append_cut {s : Step} (hs : cut s = true) (u v : List Step) :
    segments cut (u ++ s :: v) = segments cut u ++ segments cut v := by
  obtain ⟨xs, last, hu⟩ := exists_segments_eq_append cut u
  rw [segments_append hu (segments_cons_cut hs v), hu]
  simp

theorem exists_cut {ss : List Step} {n : Nat} (h : n + 1 < (segments cut ss).length) :
    ∃ u s v, ss = u ++ s :: v ∧ cut s = true ∧ (segments cut u).length = n + 1 := by
  induction ss generalizing n with
  | nil => simp [segments, splitAt] at h
  | cons a ss ih =>
    by_cases ha : cut a = true
    · cases n with
      | zero => exact ⟨[], a, ss, rfl, ha, rfl⟩
      | succ n =>
        obtain ⟨u, s, v, rfl, hs, hl⟩ := ih (n := n) (by
          rw [segments_cons_cut ha, List.length_cons] at h
          omega)
        exact ⟨a :: u, s, v, rfl, hs, by rw [segments_cons_cut ha, List.length_cons, hl]⟩
    · have ha' : cut a = false := by simpa using ha
      obtain ⟨u, s, v, rfl, hs, hl⟩ := ih (n := n) (by
        rw [segments_cons_keep ha'] at h
        exact h)
      refine ⟨a :: u, s, v, rfl, hs, ?_⟩
      rw [segments_cons_keep ha']
      exact hl

theorem textOf_segments {ss : List Step} {sep : Text} (h : ∀ s ∈ ss, cut s = true → s.text = sep) :
    textOf ss = textOf (splitAt cut ss).1 ++
      (splitAt cut ss).2.flatMap fun part => sep ++ textOf part := by
  induction ss with
  | nil => rfl
  | cons a ss ih =>
    have hi := ih fun s hs => h s (List.mem_cons_of_mem _ hs)
    rw [splitAt_cons]
    split
    · rename_i ha
      rw [textOf_cons, h a List.mem_cons_self ha, hi]
      simp [segments]
    · rw [textOf_cons, hi]
      simp

end Cutting

theorem title_cons_params (l : OuterLink) : l.title :: l.params =
    (segments (separates l.opening.depths.template) l.inside).map textOf := rfl

theorem textOf_inside {l : OuterLink} (h : ∀ s ∈ l.inside, s.kind = .pipe → s.text = ['|']) :
    textOf l.inside = textOf (splitAt (separates l.opening.depths.template) l.inside).1 ++
      (splitAt (separates l.opening.depths.template) l.inside).2.flatMap
        fun part => ['|'] ++ textOf part := by
  have hsep : ∀ s ∈ l.inside, separates l.opening.depths.template s = true → s.text = ['|'] := by
    intro s hs hc
    exact h s hs (separates_iff.mp hc).1
  exact textOf_segments hsep

theorem text_eq_render {l : OuterLink} (ho : l.opening.text = LexemeKind.linkOpen.literal)
    (hc : l.closing.text = LexemeKind.linkClose.literal)
    (hi : ∀ s ∈ l.inside, s.kind = .pipe → s.text = ['|']) :
    l.text = render l.title l.params := by
  have hs := textOf_inside hi
  have ht : l.text = l.opening.text ++ (textOf l.inside ++ l.closing.text) := by
    simp [text, steps, textOf]
  rw [ht, ho, hc, hs]
  simp [render, title, params, LexemeKind.literal, textOf, List.flatMap_map]

theorem ofSteps_eq (b : Nat) (ss : List Step) :
    ofSteps b ss =
      match next? (b, ss) with
      | none => []
      | some (l, t) => l :: ofSteps t.1 t.2 := by
  rw [ofSteps, unfold_eq]
  cases next? (b, ss) <;> rfl

theorem next?_other {s : Step} (hs : opens s = false) (b : Nat) (ss : List Step) :
    next? (b, s :: ss) = next? (b + s.text.byteLength, ss) := by
  simp only [next?, List.dropWhile_cons, List.takeWhile_cons, hs, Bool.not_false, if_true,
    List.flatMap_cons, Text.byteLength_append, Nat.add_assoc]

theorem next?_link {o c : Step} {inside : List Step} (ho : opens o = true)
    (hi : ∀ s ∈ inside, closes s = false) (hc : closes c = true) (b : Nat) (ss : List Step) :
    next? (b, o :: (inside ++ c :: ss)) =
      some (⟨b, o, inside, c⟩, ((⟨b, o, inside, c⟩ : OuterLink).bytes.stop, ss)) := by
  have hi' : ∀ s ∈ inside, (!closes s) = true := fun s hs => by simp [hi s hs]
  simp only [next?, List.dropWhile_cons, List.takeWhile_cons, ho, Bool.not_true,
    Bool.false_eq_true, if_false, List.dropWhile_append_of_pos hi',
    List.takeWhile_append_of_pos hi', hc]
  simp

theorem ofSteps_other {s : Step} (hs : opens s = false) (b : Nat) (ss : List Step) :
    ofSteps b (s :: ss) = ofSteps (b + s.text.byteLength) ss := by
  rw [ofSteps_eq, next?_other hs, ← ofSteps_eq]

/-- `Holds b ss ls`: the steps `ss`, which begin at the byte `b`, hold the outermost links `ls` and
leave no link open. -/
inductive Holds : Nat → List Step → List OuterLink → Prop
  | nil {b : Nat} : Holds b [] []
  | other {b : Nat} {s : Step} {ss : List Step} {ls : List OuterLink} (hs : opens s = false)
      (h : Holds (b + s.text.byteLength) ss ls) : Holds b (s :: ss) ls
  | link {b : Nat} {o c : Step} {inside ss : List Step} {ls : List OuterLink}
      (ho : opens o = true) (hi : ∀ s ∈ inside, closes s = false) (hc : closes c = true)
      (h : Holds (⟨b, o, inside, c⟩ : OuterLink).bytes.stop ss ls) :
      Holds b (o :: (inside ++ c :: ss)) (⟨b, o, inside, c⟩ :: ls)

theorem stop_eq (b : Nat) (o c : Step) (inside ss : List Step) :
    (⟨b, o, inside, c⟩ : OuterLink).bytes.stop + (textOf ss).byteLength =
      b + (textOf (o :: (inside ++ c :: ss))).byteLength := by
  simp [bytes, text, steps, textOf, Nat.add_assoc]

theorem Holds.ofSteps_append {b : Nat} {ss : List Step} {ls : List OuterLink} (h : Holds b ss ls)
    (rest : List Step) :
    ofSteps b (ss ++ rest) = ls ++ ofSteps (b + (textOf ss).byteLength) rest := by
  induction h with
  | nil => rfl
  | other hs _ ih =>
    rw [List.cons_append, ofSteps_other hs, ih, textOf_cons, Text.byteLength_append, Nat.add_assoc]
  | link ho hi hc _ ih =>
    rw [List.cons_append, List.append_assoc, List.cons_append, ofSteps_eq, next?_link ho hi hc,
      ← stop_eq]
    exact congrArg (_ :: ·) ih

theorem Holds.ofSteps_eq {b : Nat} {ss : List Step} {ls : List OuterLink} (h : Holds b ss ls) :
    ofSteps b ss = ls := by
  have hn : ofSteps (b + (textOf ss).byteLength) [] = [] := by
    rw [OuterLink.ofSteps_eq]
    rfl
  simpa [hn] using h.ofSteps_append []

theorem Holds.append {b : Nat} {ss ss' : List Step} {ls ls' : List OuterLink} (h : Holds b ss ls)
    (h' : Holds (b + (textOf ss).byteLength) ss' ls') : Holds b (ss ++ ss') (ls ++ ls') := by
  induction h with
  | nil => exact h'
  | other hs _ ih =>
    apply Holds.other hs
    apply ih
    rwa [textOf_cons, Text.byteLength_append, ← Nat.add_assoc] at h'
  | link ho hi hc _ ih =>
    rw [List.cons_append, List.append_assoc, List.cons_append]
    apply Holds.link ho hi hc
    apply ih
    rwa [stop_eq]

theorem Holds.bounds {b : Nat} {ss : List Step} {ls : List OuterLink} (h : Holds b ss ls) :
    ∀ l ∈ ls, b ≤ l.start ∧ l.bytes.stop ≤ b + (textOf ss).byteLength := by
  induction h with
  | nil => simp
  | other _ _ ih =>
    intro l hl
    obtain ⟨hstart, hstop⟩ := ih l hl
    rw [textOf_cons, Text.byteLength_append]
    omega
  | @link b o c inside ss _ _ _ _ _ ih =>
    intro l hl
    have hstop := stop_eq b o c inside ss
    rcases List.mem_cons.mp hl with rfl | hl
    · exact ⟨le_rfl, by omega⟩
    · obtain ⟨hstart, hend⟩ := ih l hl
      have hle : b ≤ (⟨b, o, inside, c⟩ : OuterLink).bytes.stop := Nat.le_add_right _ _
      omega

theorem holds_of_not_opens {b : Nat} {ss : List Step} (h : ∀ s ∈ ss, opens s = false) :
    Holds b ss [] := by
  induction ss generalizing b with
  | nil => exact .nil
  | cons s ss ih =>
    exact .other (h s List.mem_cons_self) (ih fun s hs => h s (List.mem_cons_of_mem _ hs))

theorem exists_holds_of_next? {b n : Nat} {ss rest : List Step} {l : OuterLink}
    (h : next? (b, ss) = some (l, (n, rest))) :
    ∃ quiet, ss = quiet ++ (l.steps ++ rest) ∧ (∀ s ∈ quiet, opens s = false) ∧
      l.start = b + (textOf quiet).byteLength ∧ opens l.opening = true ∧
      (∀ s ∈ l.inside, closes s = false) ∧ closes l.closing = true ∧ n = l.bytes.stop := by
  have hstop (p : Step → Bool) (xs : List Step) : ∀ s ∈ xs.takeWhile (!p ·), p s = false :=
    fun s hs => by simpa using List.mem_takeWhile_imp hs
  have hfirst (p : Step → Bool) {xs ys : List Step} {s : Step}
      (he : xs.dropWhile (!p ·) = s :: ys) : p s = true := by
    have hh := List.head?_dropWhile_not (!p ·) xs
    rw [he] at hh
    simpa using hh
  simp only [next?] at h
  split at h
  · cases h
  · rename_i o after ho
    split at h
    · cases h
    · rename_i c r hc
      cases h
      refine ⟨ss.takeWhile (!opens ·), ?_, hstop opens ss, rfl, hfirst opens ho,
        hstop closes after, hfirst closes hc, rfl⟩
      calc ss = ss.takeWhile (!opens ·) ++ ss.dropWhile (!opens ·) := by simp
        _ = ss.takeWhile (!opens ·) ++
              o :: (after.takeWhile (!closes ·) ++ after.dropWhile (!closes ·)) := by
            rw [ho, List.takeWhile_append_dropWhile]
        _ = _ := by rw [hc]; simp [steps]

/-- `Stands b pre l before`: the link `l` comes after the steps `pre`, which begin at the byte `b`
and hold the links `before`. -/
structure Stands (b : Nat) (pre : List Step) (l : OuterLink) (before : List OuterLink) :
    Prop where
  holds : Holds b pre before
  start : l.start = b + (textOf pre).byteLength
  opening : opens l.opening = true
  inside : ∀ s ∈ l.inside, closes s = false
  closing : closes l.closing = true

theorem exists_stands {b : Nat} {ss : List Step} {before behind : List OuterLink} {l : OuterLink}
    (h : ofSteps b ss = before ++ l :: behind) :
    ∃ pre post, ss = pre ++ (l.steps ++ post) ∧ Stands b pre l before ∧
      ofSteps l.bytes.stop post = behind := by
  induction before generalizing b ss with
  | nil =>
    rw [ofSteps_eq] at h
    split at h
    · cases h
    · rename_i a t hn
      obtain ⟨n, rest⟩ := t
      obtain ⟨rfl, rfl⟩ := List.cons.inj h
      obtain ⟨quiet, rfl, hq, hs, ho, hi, hc, rfl⟩ := exists_holds_of_next? hn
      exact ⟨quiet, rest, rfl, ⟨holds_of_not_opens hq, hs, ho, hi, hc⟩, rfl⟩
  | cons a before ih =>
    rw [ofSteps_eq] at h
    split at h
    · cases h
    · rename_i a' t hn
      obtain ⟨n, rest⟩ := t
      obtain ⟨rfl, hrest⟩ := List.cons.inj h
      obtain ⟨quiet, rfl, hq, hs, ho, hi, hc, rfl⟩ := exists_holds_of_next? hn
      obtain ⟨pre, post, rfl, hst, hb⟩ := ih hrest
      have hlink : Holds a'.start (a'.steps ++ pre) (a' :: before) := by
        have := Holds.link (b := a'.start) ho hi hc hst.holds
        simpa [steps] using this
      refine ⟨quiet ++ (a'.steps ++ pre), post, by simp, ⟨?_, ?_, hst.opening, hst.inside,
        hst.closing⟩, hb⟩
      · exact (holds_of_not_opens hq).append (by rwa [← hs])
      · rw [hst.start, textOf_append, textOf_append, Text.byteLength_append,
          Text.byteLength_append, ← Nat.add_assoc, ← hs]
        simp [bytes, text, textOf, Nat.add_assoc]

theorem Stands.ofSteps_eq {b : Nat} {pre : List Step} {l : OuterLink} {before : List OuterLink}
    (h : Stands b pre l before) (post : List Step) :
    ofSteps b (pre ++ (l.steps ++ post)) = before ++ l :: ofSteps l.bytes.stop post := by
  rw [h.holds.ofSteps_append, ← h.start]
  have he : l.steps ++ post = l.opening :: (l.inside ++ l.closing :: post) := by simp [steps]
  rw [he, OuterLink.ofSteps_eq, next?_link h.opening h.inside h.closing]

theorem exists_close {d e : Depths} {ls : List Lexeme} {ss : List Step} (h : Groups d ls ss e)
    (hd : d.link ≠ 0) (he : e.link = 0) :
    ∃ inside c rest ls', ss = inside ++ c :: rest ∧ (∀ s ∈ inside, closes s = false) ∧
      closes c = true ∧ c.depths.link = 0 ∧ Groups c.depths ls' rest e := by
  induction h with
  | nil => exact absurd he hd
  | @lexeme d e l ls ss hk h ih =>
    by_cases hz : (d.after l.kind).2.link = 0
    · have hc : (d.after l.kind).1 = .linkClose := by
        rcases d.link_after l.kind with ⟨-, hl⟩ | ⟨hc, -⟩ | ⟨-, -, hl⟩
        · omega
        · exact hc
        · omega
      exact ⟨[], _, ss, ls, rfl, by simp, by simp [closes, hc, hz], hz, h⟩
    · obtain ⟨inside, c, rest, ls', rfl, hi, hc, hcz, hr⟩ := ih hz he
      refine ⟨_ :: inside, c, rest, ls', rfl, fun s hs => ?_, hc, hcz, hr⟩
      rcases List.mem_cons.mp hs with rfl | hs
      · simp [closes, hz]
      · exact hi s hs
  | comment _ _ _ _ ih =>
    obtain ⟨inside, c, rest, ls', rfl, hi, hc, hcz, hr⟩ := ih hd he
    refine ⟨_ :: inside, c, rest, ls', rfl, fun s hs => ?_, hc, hcz, hr⟩
    rcases List.mem_cons.mp hs with rfl | hs
    · simp [closes]
    · exact hi s hs

theorem exists_holds_of_groups {d e : Depths} {ls : List Lexeme} {ss : List Step}
    (h : Groups d ls ss e) (hd : d.link = 0) (he : e.link = 0) (b : Nat) :
    ∃ links, Holds b ss links := by
  generalize hn : ss.length = n
  induction n using Nat.strongRecOn generalizing b d ls ss with
  | ind n ih =>
    cases h with
    | nil => exact ⟨[], .nil⟩
    | @lexeme _ _ l ls ss hk h =>
      rcases d.link_after l.kind with ⟨ho, hl⟩ | ⟨-, hl⟩ | ⟨hno, -, hl⟩
      · obtain ⟨inside, c, rest, ls', rfl, hi, hc, hcz, hr⟩ := exists_close h (by omega) he
        have hlt : rest.length < n := by
          rw [← hn]
          simp only [List.length_cons, List.length_append]
          omega
        obtain ⟨links, hlinks⟩ := ih _ hlt hr hcz (OuterLink.mk b _ inside c).bytes.stop rfl
        exact ⟨_, .link (by simp [opens, ho, hl, hd]) hi hc hlinks⟩
      · omega
      · obtain ⟨links, hlinks⟩ := ih _ (by simp [← hn]) h (hl.trans hd)
          (b + Text.byteLength (Cell.chars l.cells)) rfl
        exact ⟨links, .other (by simp [opens, hno]) hlinks⟩
    | comment hl hb hc h =>
      obtain ⟨links, hl⟩ := ih _ (by simp [← hn]) h hd _ rfl
      exact ⟨links, .other (by simp [opens]) hl⟩

/-- A stretch that begins and ends outside all links holds whole links. -/
theorem holds_of_scans {d e : Depths} {x z : List Cell} {ss : List Step} (h : Scans d x z ss e)
    (hd : d.link = 0) (he : e.link = 0) (b : Nat) : Holds b ss (ofSteps b ss) := by
  obtain ⟨ls, -, hg⟩ := h
  obtain ⟨links, hl⟩ := exists_holds_of_groups hg hd he b
  rwa [hl.ofSteps_eq]

/-- The link `n` bytes further on. -/
def shift (n : Nat) (l : OuterLink) : OuterLink :=
  ⟨l.start + n, l.opening, l.inside, l.closing⟩

theorem next?_shift (b n : Nat) (ss : List Step) : next? (b + n, ss) =
    (next? (b, ss)).map fun p => (shift n p.1, (p.2.1 + n, p.2.2)) := by
  simp only [next?]
  split
  · rfl
  · split
    · rfl
    · simp only [Option.map_some, Option.some.injEq, Prod.mk.injEq, shift, bytes, text, steps,
        OuterLink.mk.injEq, and_true]
      omega

theorem ofSteps_shift (b n : Nat) (ss : List Step) :
    ofSteps (b + n) ss = (ofSteps b ss).map (shift n) := by
  generalize hm : ss.length = m
  induction m using Nat.strongRecOn generalizing b ss with
  | ind m ih =>
    rw [ofSteps_eq, ofSteps_eq b, next?_shift]
    cases hs : next? (b, ss) with
    | none => rfl
    | some p =>
      obtain ⟨l, b', rest⟩ := p
      have hlt : rest.length < m := hm ▸ next?_shrinks _ _ _ hs
      exact congrArg (_ :: ·) (ih _ hlt b' rest rfl)

end OuterLink

end Wikitext
