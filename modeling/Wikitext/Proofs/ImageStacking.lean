import Wikitext.Proofs.ImageInsertion
import Wikitext.Proofs.LeadingRun

/-! Images put below the leading block one after the other. The block is read the same with an image
behind it, and the line breaks added are the same, so each image comes to stand directly above the
one before it, as if both had been put in at once. -/

namespace Wikitext

open Step LeadingItem Document

theorem Newlines.append {x y : List Cell} (hx : Newlines x) (hy : Newlines y) :
    Newlines (x ++ y) := by
  induction hx with
  | nil => exact hy
  | feed ha _ ih => exact .feed ha ih
  | pair ha hb _ ih => exact .pair ha hb ih

theorem Newlines.countNewlines_append {x y : List Cell} (h : Newlines x)
    (hy : (Cell.chars y).Unbroken) : countNewlines (x ++ y) = x.length := by
  have hfrom (n : Nat) : countNewlinesFrom n (x ++ y) = n + x.length := by
    induction h generalizing n with
    | nil =>
      cases y with
      | nil => rfl
      | cons a r =>
        have ha : a.char ≠ '\n' := fun ha => hy.1 ⟨Cell.chars r, by rw [Cell.chars_cons, ha]; rfl⟩
        cases r with
        | nil => simp [countNewlinesFrom, ha]
        | cons b r =>
          have hb : ¬ (a.char = '\r' ∧ b.char = '\n') := by
            rintro ⟨ha, hb⟩
            exact hy.2 ⟨Cell.chars r, by rw [Cell.chars_cons, Cell.chars_cons, ha, hb]; rfl⟩
          simp [countNewlinesFrom, ha, hb]
    | @feed a x ha _ ih =>
      rw [List.cons_append, List.length_cons]
      cases hr : x ++ y with
      | nil =>
        obtain ⟨rfl, -⟩ := List.append_eq_nil_iff.mp hr
        simp [countNewlinesFrom, ha]
      | cons b r =>
        rw [hr] at ih
        rw [countNewlinesFrom, if_pos ha, ih]
        omega
    | pair ha hb _ ih =>
      have hcr : ¬ ('\r' = '\n') := by decide
      simp only [List.cons_append, List.length_cons, countNewlinesFrom, ha, hb, if_neg hcr, ih]
      simp
      omega
  rw [countNewlines, hfrom, Nat.zero_add]

namespace LeadingItem

theorem next?_of_parts {i : LeadingItem} {blank feeds rest : List Cell} {steps : List Step}
    (hi : Parts i blank steps feeds)
    (hb : bodySteps? (steps.flatMap (·.cells) ++ (feeds ++ rest)) = some steps)
    (hrest : (Cell.chars rest).Unbroken) :
    next? (blank ++ (steps.flatMap (·.cells) ++ (feeds ++ rest))) = some (i, rest) := by
  obtain ⟨a, r, hcons, -, ha⟩ := exists_cons_of_body hb
  have htake : (blank ++ (steps.flatMap (·.cells) ++ (feeds ++ rest))).takeWhile
      (isWhite ·.char) = blank := by
    rw [List.takeWhile_append_of_pos hi.white, hcons, List.cons_append,
      List.takeWhile_cons_of_neg (by simp [ha]), List.append_nil]
  have hdrop : (blank ++ (steps.flatMap (·.cells) ++ (feeds ++ rest))).dropWhile
      (isWhite ·.char) = steps.flatMap (·.cells) ++ (feeds ++ rest) := by
    rw [List.dropWhile_append_of_pos hi.white, hcons, List.cons_append,
      List.dropWhile_cons_of_neg (by simp [ha])]
  simp only [next?, htake, hdrop, hb, List.drop_left, hi.newlines.countNewlines_append hrest,
    List.take_left, hi.item]

/-- An item whose line breaks others follow is the same item with these line breaks too. -/
theorem exists_extend {t : Text} {w c rest : List Cell} {i : LeadingItem}
    (ht : Cell.ofText t = w ++ c) (h : next? c = some (i, rest))
    (hend : rest = [] → ¬ i.Unterminated) : ∃ x, c = x ++ rest ∧ Cell.chars x = i.text ∧
      Cell.atBoundary rest = true ∧ (Cell.chars rest).Unbroken ∧
      ∀ f z, Newlines f → Cell.atBoundary (f ++ z) = true → (Cell.chars z).Unbroken →
        next? (x ++ (f ++ z)) = some (⟨i.blank, i.body, i.newlines ++ Cell.chars f⟩, z) := by
  obtain ⟨blank, steps, feeds, hc, hi, hb, hunbroken⟩ := exists_parts h
  obtain ⟨x, hx, hchars, -, -, hrest⟩ := exists_of_next? ht h hend
  obtain rfl : x = blank ++ (steps.flatMap (·.cells) ++ feeds) := by
    apply List.append_cancel_right (hx.symm.trans (hc.trans _))
    simp only [List.append_assoc]
  refine ⟨_, hx, hchars, hrest, hunbroken, fun f z hf hfz hz => ?_⟩
  have hbehind : Cell.atBoundary (feeds ++ rest) = true := by
    obtain ⟨y, hy, hyb⟩ := exists_behind_body hb
    rwa [List.append_cancel_left hy]
  have hfeeds : Cell.atBoundary ((feeds ++ f) ++ z) = true := by
    rw [List.append_assoc]
    exact Cell.atBoundary_append_of (Cell.atBoundary_of_append hbehind) hfz
  have hbody := bodySteps?_replace hb (fun hnil => exists_close_of_terminated
    (t := t) (w := w ++ blank) (y := feeds ++ rest) (by rw [ht, hc, List.append_assoc])
    (by
      rw [Cell.atBoundary_append (bodySteps?_cells_ne_nil hb)]
      exact (exists_opener_of_body hb).1)
    (by rw [hi.item]) (hend (List.append_eq_nil_iff.mp hnil).2)) hfeeds
  have hparts : Parts ⟨i.blank, i.body, i.newlines ++ Cell.chars f⟩ blank steps (feeds ++ f) :=
    ⟨by rw [hi.item, Cell.chars_append], hi.white, hi.newlines.append hf⟩
  have hnext := next?_of_parts hparts hbody hz
  simpa only [List.append_assoc] using hnext

theorem two_le_length_text {c rest : List Cell} {i : LeadingItem} (h : next? c = some (i, rest)) :
    2 ≤ i.text.length := by
  obtain ⟨blank, steps, feeds, -, hi, hb, -⟩ := exists_parts h
  obtain ⟨-, k, hk, hp⟩ := exists_opener_of_body hb
  have hopeners : ∀ k ∈ [LexemeKind.commentOpen, .templateOpen], 2 ≤ k.literal.length := by decide
  have hle := hp.length_le
  have htwo := hopeners k hk
  rw [hi.item]
  simp only [text, List.length_append]
  omega

theorem next?_of_linkOpen {t : Text} (h : LexemeKind.linkOpen.literal <+: t) :
    next? (Cell.ofText t) = none := by
  obtain ⟨r, rfl⟩ := h
  have hcells : Cell.chars (Cell.ofText (LexemeKind.linkOpen.literal ++ r)) =
      '[' :: '[' :: r := Cell.chars_ofText _
  generalize Cell.ofText _ = cells at hcells
  obtain ⟨a, y, rfl, ha, -⟩ := List.map_eq_cons_iff.mp hcells
  have hwhite : isWhite a.char = false := by
    rw [ha]
    decide
  have hbody : bodySteps? (a :: y) = none := by
    by_contra hsome
    obtain ⟨steps, hb⟩ := Option.ne_none_iff_exists'.mp hsome
    obtain ⟨z, hz, -⟩ := exists_behind_body hb
    obtain ⟨b, u, hu, hopens, -⟩ := exists_cons_of_body hb
    rw [hu] at hz
    obtain rfl : a = b := (List.cons.inj hz).1
    rw [ha] at hopens
    exact absurd hopens (by decide)
  simp [next?, hwhite, hbody]

end LeadingItem

namespace Text

theorem unbroken_of_linkOpen {t : Text} (h : LexemeKind.linkOpen.literal <+: t) : t.Unbroken := by
  obtain ⟨r, rfl⟩ := h
  constructor <;> simp [LexemeKind.literal]

theorem Unbroken.congr {s t t' : Text} (hs : 2 ≤ s.length) (h : (s ++ t).Unbroken) :
    (s ++ t').Unbroken := by
  match s, hs with
  | a :: b :: s, _ => simpa [Unbroken] using h

end Text

namespace LeadingBlock

/-- The items with the text `f` behind the line breaks of the last. -/
def extendLast (f : Text) : List LeadingItem → List LeadingItem
  | [] => []
  | [i] => [⟨i.blank, i.body, i.newlines ++ f⟩]
  | i :: j :: is => i :: extendLast f (j :: is)

theorem extendLast_cons_of_ne_nil (f : Text) (i : LeadingItem) {is : List LeadingItem}
    (h : is ≠ []) : extendLast f (i :: is) = i :: extendLast f is := by
  obtain ⟨j, is, rfl⟩ := List.exists_cons_of_ne_nil h
  rfl

theorem text_extendLast {f : Text} {is : List LeadingItem} (h : is = [] → f = []) :
    (extendLast f is).flatMap LeadingItem.text = is.flatMap LeadingItem.text ++ f := by
  fun_induction extendLast f is with
  | case1 => exact (h rfl).symm
  | case2 i => simp [LeadingItem.text]
  | case3 i j is ih => simp [ih]

theorem bodyRanges_extendLast (f : Text) (is : List LeadingItem) (start : Nat) :
    bodyRanges start (extendLast f is) = bodyRanges start is := by
  fun_induction extendLast f is generalizing start with
  | case1 => rfl
  | case2 i => rfl
  | case3 i j is ih => rw [bodyRanges, ih, ← bodyRanges]

theorem exists_of_mem_getLast?_extendLast {f : Text} {is : List LeadingItem} {i : LeadingItem}
    (h : i ∈ (extendLast f is).getLast?) : ∃ j ∈ is.getLast?, i.body = j.body := by
  fun_induction extendLast f is with
  | case1 => cases h
  | case2 j =>
    obtain rfl : _ = i := by simpa using h
    exact ⟨j, rfl, rfl⟩
  | case3 j k is ih =>
    have hne : extendLast f (k :: is) ≠ [] := by cases is <;> simp [extendLast]
    rw [List.getLast?_cons, List.getLast?_eq_some_getLast hne, Option.getD_some] at h
    obtain ⟨l, hl, he⟩ := ih (by rwa [List.getLast?_eq_some_getLast hne])
    exact ⟨l, by rwa [List.getLast?_cons_cons], he⟩

theorem two_le_length_text_itemsOf {cells : List Cell} (h : itemsOf cells ≠ []) :
    2 ≤ ((itemsOf cells).flatMap LeadingItem.text).length := by
  rw [itemsOf_eq] at h ⊢
  cases hi : next? cells with
  | none => simp [hi] at h
  | some p =>
    have htwo := two_le_length_text hi
    simp only [List.flatMap_cons, List.length_append]
    omega

theorem exists_behind_first {x z rest : List Cell} {i : LeadingItem}
    (hi : next? (x ++ z) = some (i, rest)) {y : List Cell} (hy : x ++ z = y ++ rest)
    (hchars : Cell.chars y = i.text)
    (hx : Cell.chars x = (itemsOf (x ++ z)).flatMap LeadingItem.text) : ∃ x', x = y ++ x' ∧
      rest = x' ++ z ∧ Cell.chars x' = (itemsOf rest).flatMap LeadingItem.text ∧
      x'.length < x.length := by
  rw [itemsOf_eq, hi, List.flatMap_cons, ← hchars] at hx
  obtain ⟨y', x', rfl, hy', hx'⟩ := Cell.exists_append_of_chars_eq hx
  rw [List.append_assoc] at hy
  have hlen : y'.length = y.length := by rw [← Cell.length_chars, hy', Cell.length_chars]
  obtain ⟨rfl, hrest⟩ := List.append_inj hy hlen
  have htwo := two_le_length_text hi
  rw [← hchars, Cell.length_chars] at htwo
  refine ⟨x', rfl, hrest.symm, hx', ?_⟩
  rw [List.length_append]
  omega

/-- Line breaks put behind the leading block join it, and it ends there if no item follows. -/
theorem itemsOf_extend {t : Text} {w x z f q : List Cell}
    (ht : Cell.ofText t = w ++ (x ++ z)) (hb : Cell.atBoundary (x ++ z) = true)
    (hx : Cell.chars x = (itemsOf (x ++ z)).flatMap LeadingItem.text)
    (hend : ∀ i ∈ (itemsOf (x ++ z)).getLast?, ¬ i.Unterminated) (hf : Newlines f)
    (hfq : Cell.atBoundary (f ++ q) = true) (hq : (Cell.chars q).Unbroken)
    (hnone : next? q = none) (hnil : x = [] → f = []) :
    itemsOf (x ++ (f ++ q)) = extendLast (Cell.chars f) (itemsOf (x ++ z)) := by
  generalize hn : x.length = n
  induction n using Nat.strongRecOn generalizing w x with
  | ind n ih =>
    cases hi : next? (x ++ z) with
    | none =>
      have hitems : itemsOf (x ++ z) = [] := by rw [itemsOf_eq, hi]
      rw [hitems] at hx ⊢
      obtain rfl : x = [] := List.map_eq_nil_iff.mp hx
      rw [hnil rfl, List.nil_append, List.nil_append, itemsOf_eq, hnone]
      rfl
    | some p =>
      obtain ⟨i, rest⟩ := p
      have hitems : itemsOf (x ++ z) = i :: itemsOf rest := by rw [itemsOf_eq, hi]
      obtain ⟨y, hy, hchars, hrest, hunbroken, hextend⟩ := LeadingItem.exists_extend ht hi fun he =>
        hend i (by rw [hitems, he, itemsOf_nil]; rfl)
      obtain ⟨x', rfl, rfl, hx', hlt⟩ := exists_behind_first hi hy hchars hx
      rw [hn] at hlt
      rw [hitems]
      by_cases hnil : x' = []
      · subst hnil
        have hitems' : itemsOf ([] ++ z) = [] := byteLength_eq_zero_iff.mp (by rw [← hx']; rfl)
        rw [List.append_nil, itemsOf_eq, hextend f q hf hfq hq, hitems']
        simp only [itemsOf_eq q, hnone]
        rfl
      · have hne : itemsOf (x' ++ z) ≠ [] := by
          intro he
          rw [he] at hx'
          exact hnil (List.map_eq_nil_iff.mp hx')
        have hboundary : Cell.atBoundary (x' ++ (f ++ q)) = true := by
          rwa [Cell.atBoundary_append hnil, ← Cell.atBoundary_append hnil z]
        have hunbroken' : (Cell.chars (x' ++ (f ++ q))).Unbroken := by
          rw [Cell.chars_append] at hunbroken ⊢
          exact hunbroken.congr (hx' ▸ two_le_length_text_itemsOf hne)
        have hnext := hextend [] (x' ++ (f ++ q)) .nil hboundary hunbroken'
        rw [List.nil_append, Cell.chars_nil, List.append_nil] at hnext
        rw [List.append_assoc, itemsOf_eq, hnext, extendLast_cons_of_ne_nil _ _ hne]
        refine congrArg (_ :: ·) (ih _ hlt (w := w ++ y) ?_ hrest hx' (fun j hj => ?_)
          (fun h => absurd h hnil) rfl)
        · rw [ht]
          simp only [List.append_assoc]
        · apply hend j
          rw [hitems, List.getLast?_cons, Option.mem_def.mp hj]
          rfl

theorem stop_le_of_mem_bodyRanges {is : List LeadingItem} {start : Nat} {r : ByteRange}
    (h : r ∈ bodyRanges start is) :
    r.start ≤ r.stop ∧ r.stop ≤ start + Text.byteLength (is.flatMap LeadingItem.text) := by
  induction is generalizing start with
  | nil => cases h
  | cons i is ih =>
    rw [List.flatMap_cons, Text.byteLength_append]
    rcases List.mem_cons.mp h with rfl | h
    · simp only [LeadingItem.text, Text.byteLength_append]
      omega
    · obtain ⟨hle, hstop⟩ := ih h
      exact ⟨hle, by omega⟩

end LeadingBlock

namespace Text

theorem lineBreak_eq {s : Text} (hs : '\n' ∉ s) (r : Text) : (s ++ '\n' :: r).lineBreak =
    if s.getLast? = some '\r' then ['\r', '\n'] else ['\n'] := by
  have htake : (s ++ '\n' :: r).takeWhile (fun c => decide (c ≠ '\n')) = s := by
    rw [List.takeWhile_append_of_pos fun c hc => by simpa using ne_of_mem_of_not_mem hc hs,
      List.takeWhile_cons_of_neg (by simp), List.append_nil]
  have hlt : s.length < (s ++ '\n' :: r).length := by
    rw [List.length_append, List.length_cons]
    omega
  simp only [lineBreak, htake, hlt, decide_true, Bool.true_and, decide_eq_true_eq]

theorem lineBreak_of_not_mem {s : Text} (hs : '\n' ∉ s) : s.lineBreak = ['\n'] := by
  have htake : s.takeWhile (fun c => decide (c ≠ '\n')) = s := by
    rw [List.takeWhile_eq_self_iff]
    exact fun c hc => by simpa using ne_of_mem_of_not_mem hc hs
  simp only [lineBreak, htake, Nat.lt_irrefl, decide_false, Bool.false_and, Bool.false_eq_true,
    if_false]

/-- The first line break of a text is the one that its line breaks are like. -/
theorem lineBreak_behind {s : Text} (hs : '\n' ∉ s) (hcr : s.getLast? ≠ some '\r') (t r : Text) :
    (s ++ (t.lineBreak ++ r)).lineBreak = t.lineBreak := by
  have hbreak : t.lineBreak = ['\r', '\n'] ∨ t.lineBreak = ['\n'] := by
    rw [lineBreak]
    split
    · exact .inl rfl
    · exact .inr rfl
  rcases hbreak with hbreak | hbreak
  · have hs' : '\n' ∉ s ++ ['\r'] := by simp [hs]
    rw [hbreak]
    simpa using lineBreak_eq hs' r
  · rw [hbreak]
    simpa [hcr] using lineBreak_eq hs r

end Text

/-- The last item of the block is no comment without an end. -/
def LeadingBlock.Ended (b : LeadingBlock) : Prop :=
  ∀ i ∈ b.items.getLast?, ¬ i.Unterminated

instance (b : LeadingBlock) : Decidable b.Ended :=
  inferInstanceAs (Decidable (∀ i ∈ b.items.getLast?, ¬ i.Unterminated))

/-- A link on one line. -/
structure LinkLine (m : Text) : Prop where
  opens : LexemeKind.linkOpen.literal <+: m
  closes : LexemeKind.linkClose.literal <:+ m
  line : '\n' ∉ m

namespace LinkLine

variable {m : Text}

theorem exists_cons (h : LinkLine m) : ∃ r, m = '[' :: r := by
  obtain ⟨r, rfl⟩ := h.opens
  exact ⟨_, rfl⟩

theorem ne_nil (h : LinkLine m) : m ≠ [] := by
  obtain ⟨r, rfl⟩ := h.exists_cons
  exact List.cons_ne_nil _ _

theorem getLast?_eq (h : LinkLine m) : m.getLast? = some ']' := by
  obtain ⟨r, rfl⟩ := h.closes
  rw [LexemeKind.literal, List.getLast?_append_of_ne_nil _ (List.cons_ne_nil _ _)]
  rfl

end LinkLine

section

variable {text head tail first : Text}

theorem lineBreak_insert (htext : text = head ++ tail) (hcr : head.getLast? ≠ some '\r')
    (hfirst : LinkLine first) :
    (head ++ (text.gapAbove head ++ (first ++ (text.gapBelow head tail ++ tail)))).lineBreak =
      text.lineBreak := by
  by_cases hmem : '\n' ∈ head
  · obtain ⟨a, b, rfl, ha⟩ := List.eq_append_cons_of_mem hmem
    have hnew := Text.lineBreak_eq ha (b ++ (text.gapAbove (a ++ '\n' :: b) ++
      (first ++ (text.gapBelow (a ++ '\n' :: b) tail ++ tail))))
    have hold := Text.lineBreak_eq ha (b ++ tail)
    rw [← List.cons_append, ← List.append_assoc] at hnew hold
    rw [hnew, htext, hold]
  · by_cases hnil : head = []
    · subst hnil
      rw [Text.gapAbove, if_pos (.inl rfl), Text.gapBelow, if_neg (by simp)]
      apply Text.lineBreak_behind hfirst.line
      simp [hfirst.getLast?_eq]
    · have hno : ¬ (head = [] ∨ head.getLast? = some '\n') := by
        rintro (h | h)
        · exact hnil h
        · exact hmem (List.mem_of_getLast? h)
      rw [Text.gapAbove, if_neg hno]
      exact Text.lineBreak_behind hmem hcr _ _

/-- The text is `head`, which is its leading block, and `tail`; boundaries part `head` from what may
come behind it. -/
structure Cut (text head tail : Text) : Prop where
  text_eq : text = head ++ tail
  block : (LeadingBlock.ofDocument (.ofText text)).text = head
  parted : head.Parted tail
  parted_above : ∀ c r, head.Parted (text.gapAbove head ++ c :: r)
  getLast?_ne : head.getLast? ≠ some '\r'

theorem exists_cut_leadingBlock (hend : (LeadingBlock.ofDocument (.ofText text)).Ended) :
    ∃ head tail, Cut text head tail := by
  obtain ⟨x, z, hcells, hitems, hx, hz⟩ := LeadingBlock.exists_of_itemsOf
    (c := Cell.ofText text) (List.nil_append _).symm (Cell.atBoundary_ofText text) hend
  refine ⟨Cell.chars x, Cell.chars z, ?_, hitems.symm, ?_, parted_gapAbove text hx.ends,
    fun hlast => ?_⟩
  · rw [← Cell.chars_append, ← hcells, Cell.chars_ofText]
  · rw [Text.parted_of_ofText_eq_append hcells]
    exact hz
  · rw [Cell.chars, List.getLast?_map, Option.map_eq_some_iff] at hlast
    obtain ⟨a, ha, hchar⟩ := hlast
    rcases hx.ends a ha with h | h <;> rw [hchar] at h <;> cases h

namespace Cut

variable (h : Cut text head tail)
include h

theorem ofText_eq : Cell.ofText text = Cell.ofText head ++ Cell.ofText tail := by
  conv => lhs; rw [h.text_eq]
  exact Text.ofText_append h.parted

theorem parted_insert {rest : Text} (hopen : LexemeKind.linkOpen.literal <+: rest) :
    head.Parted (text.gapAbove head ++ rest) := by
  obtain ⟨r, rfl⟩ := hopen
  exact h.parted_above '[' _

theorem itemsOf_insert (hend : (LeadingBlock.ofDocument (.ofText text)).Ended) {rest : Text}
    (hopen : LexemeKind.linkOpen.literal <+: rest) :
    LeadingBlock.itemsOf (Cell.ofText (head ++ (text.gapAbove head ++ rest))) =
      LeadingBlock.extendLast (text.gapAbove head)
        (LeadingBlock.itemsOf (Cell.ofText text)) := by
  have hgap := text.gap_gapAbove head
  have hnil : Cell.ofText head = [] → Cell.ofText (text.gapAbove head) = [] := by
    intro hnil
    have hhead : head = [] := by rw [← Cell.chars_ofText head, hnil, Cell.chars_nil]
    rw [Text.gapAbove, if_pos (.inl hhead), Cell.ofText_nil]
  have hextend := LeadingBlock.itemsOf_extend (t := text) (w := []) (x := Cell.ofText head)
    (z := Cell.ofText tail) (f := Cell.ofText (text.gapAbove head)) (q := Cell.ofText rest)
    h.ofText_eq (Cell.atBoundary_append_of (Cell.atBoundary_ofText _) (Cell.atBoundary_ofText _))
    (by rw [Cell.chars_ofText, ← h.ofText_eq]; exact h.block.symm)
    (by rw [← h.ofText_eq]; exact hend) hgap.newlines
    (Cell.atBoundary_append_of (Cell.atBoundary_ofText _) (Cell.atBoundary_ofText _))
    (by rw [Cell.chars_ofText]; exact Text.unbroken_of_linkOpen hopen)
    (next?_of_linkOpen hopen) hnil
  rw [Cell.chars_ofText, ← h.ofText_eq] at hextend
  rw [Text.ofText_append (h.parted_insert hopen), Text.ofText_append (hgap.parted _), hextend]

theorem ofDocument_insert (hend : (LeadingBlock.ofDocument (.ofText text)).Ended) {rest : Text}
    (hopen : LexemeKind.linkOpen.literal <+: rest) {edited : Text}
    (he : edited = head ++ (text.gapAbove head ++ rest)) :
    (LeadingBlock.ofDocument (.ofText edited)).text = head ++ text.gapAbove head ∧
      (LeadingBlock.ofDocument (.ofText edited)).Ended ∧
      (ofText edited).leadingSpans = (ofText text).leadingSpans := by
  have hitems : (LeadingBlock.ofDocument (.ofText edited)).items =
      LeadingBlock.extendLast (text.gapAbove head)
        (LeadingBlock.ofDocument (.ofText text)).items := by
    rw [he]
    exact h.itemsOf_insert hend hopen
  refine ⟨?_, fun i hi => ?_, ?_⟩
  · rw [LeadingBlock.text, hitems, LeadingBlock.text_extendLast fun hnil => ?_]
    · exact congrArg (· ++ _) h.block
    · have hhead : head = [] := by rw [← h.block, LeadingBlock.text, hnil]; rfl
      rw [Text.gapAbove, if_pos (.inl hhead)]
  · rw [hitems] at hi
    obtain ⟨j, hj, hbody⟩ := LeadingBlock.exists_of_mem_getLast?_extendLast hi
    rw [LeadingItem.Unterminated, hbody]
    exact hend j hj
  · rw [leadingSpans, leadingSpans, hitems, LeadingBlock.bodyRanges_extendLast]
    apply List.map_congr_left
    intro r hr
    obtain ⟨hle, hstop⟩ := LeadingBlock.stop_le_of_mem_bodyRanges hr
    have hstop' : r.stop ≤ head.byteLength := by
      rw [← h.block]
      simpa [LeadingBlock.text] using hstop
    have hcongr (n : Nat) (hn : n ≤ head.byteLength) :
        (ofText edited).clusterAt n = (ofText text).clusterAt n := by
      rw [he]
      conv => rhs; rw [h.text_eq]
      exact clusterAt_congr (h.parted_insert hopen) h.parted hn
    rw [hcongr _ (Nat.le_trans hle hstop'), hcongr _ hstop']

end Cut

/-- `Topped text first head rest`: markup put into `text` comes between `head` and `rest`. With
the link `first` there, `head` is the leading block, and what comes next stands right above it. -/
structure Topped (text first head rest : Text) : Prop where
  insert_eq : ∀ markup, markup ≠ [] → insertImage markup text = head ++ (markup ++ rest)
  block : (LeadingBlock.ofDocument (.ofText (insertImage first text))).text = head
  ended : (LeadingBlock.ofDocument (.ofText (insertImage first text))).Ended
  spans : (ofText (insertImage first text)).leadingSpans = (ofText text).leadingSpans
  lineBreak : (insertImage first text).lineBreak = text.lineBreak
  ends : head = [] ∨ head.getLast? = some '\n'

theorem topped_nil (hfirst : LinkLine first) : Topped [] first [] [] := by
  have hins (markup : Text) (hm : markup ≠ []) : insertImage markup [] = markup := by
    rw [insertImage, if_neg hm, if_pos rfl]
  have hitems : (LeadingBlock.ofDocument (.ofText first)).items = [] := by
    change LeadingBlock.itemsOf (Cell.ofText first) = []
    rw [LeadingBlock.itemsOf_eq, next?_of_linkOpen hfirst.opens]
  have hnil : (LeadingBlock.ofDocument (.ofText [])).items = [] := by
    change LeadingBlock.itemsOf (Cell.ofText []) = []
    rw [Cell.ofText_nil, LeadingBlock.itemsOf_nil]
  refine ⟨fun markup hm => ?_, ?_, ?_, ?_, ?_, .inl rfl⟩
  · rw [hins markup hm, List.append_nil, List.nil_append]
  · rw [hins first hfirst.ne_nil, LeadingBlock.text, hitems]
    rfl
  · rw [hins first hfirst.ne_nil, LeadingBlock.Ended, hitems]
    intro i hi
    cases hi
  · rw [hins first hfirst.ne_nil, leadingSpans, leadingSpans, hitems, hnil]
    rfl
  · rw [hins first hfirst.ne_nil, Text.lineBreak_of_not_mem hfirst.line]
    rfl

theorem exists_topped (hend : (LeadingBlock.ofDocument (.ofText text)).Ended)
    (hfirst : LinkLine first) : ∃ head rest, Topped text first head rest := by
  by_cases ht : text = []
  · subst ht
    exact ⟨[], [], topped_nil hfirst⟩
  · obtain ⟨head, tail, hcut⟩ := exists_cut_leadingBlock hend
    have hins (markup : Text) (hm : markup ≠ []) := insertImage_eq hm ht hcut.block hcut.text_eq
    have hedited := hins first hfirst.ne_nil
    obtain ⟨hblock, hended, hspans⟩ := hcut.ofDocument_insert hend
      (hfirst.opens.trans (List.prefix_append first _)) hedited
    refine ⟨head ++ text.gapAbove head, text.gapBelow head tail ++ tail, fun markup hm => ?_,
      hblock, hended, hspans, ?_, ?_⟩
    · rw [hins markup hm, List.append_assoc]
    · rw [hedited, lineBreak_insert hcut.text_eq hcut.getLast?_ne hfirst]
    · rw [Text.gapAbove]
      split
      · rename_i hends
        rwa [List.append_nil]
      · rw [List.getLast?_append_of_ne_nil _ text.gap_lineBreak.2]
        rcases text.gap_lineBreak.1 with h | h | h
        · exact absurd h text.gap_lineBreak.2
        · exact .inr (by rw [h]; rfl)
        · exact .inr (by rw [h]; rfl)

/-- What is put in next stands between the leading block and the link put in before it. -/
theorem Topped.insert_insert {rest second : Text} (h : Topped text first head rest)
    (hfirst : LinkLine first) (hs : second ≠ []) :
    insertImage second (insertImage first text) =
      head ++ (second ++ (text.lineBreak ++ (first ++ rest))) := by
  have hedited := h.insert_eq first hfirst.ne_nil
  have hrest : first ++ rest ≠ [] := by simp [hfirst.ne_nil]
  rw [insertImage_eq hs (by simp [hedited, hfirst.ne_nil]) h.block hedited, Text.gapAbove,
    if_pos h.ends, Text.gapBelow, if_neg (by simp [hrest]), h.lineBreak, List.nil_append]

theorem Topped.insert_insert_eq {rest second : Text} (h : Topped text first head rest)
    (hfirst : LinkLine first) (hs : second ≠ []) :
    insertImage second (insertImage first text) =
      insertImage (second ++ (text.lineBreak ++ first)) text := by
  rw [h.insert_insert hfirst hs, h.insert_eq _ (by simp [hs])]
  simp only [List.append_assoc]

end

/-- Links one above the other, with a line break between each and the one below it. The first of
them comes last. -/
def stacked (lineBreak first : Text) (later : List Text) : Text :=
  later.foldl (fun below m => m ++ (lineBreak ++ below)) first

theorem stacked_append (br first below : Text) (later : List Text) :
    stacked br (first ++ below) later = stacked br first later ++ below := by
  induction later generalizing first with
  | nil => rfl
  | cons m later ih =>
    rw [stacked, List.foldl_cons, ← List.append_assoc br, ← List.append_assoc m]
    exact ih _

theorem stacked_ne_nil {br first : Text} (h : first ≠ []) (later : List Text) :
    stacked br first later ≠ [] := by
  induction later generalizing first with
  | nil => exact h
  | cons m later ih => exact ih (by simp [h])

theorem foldl_insertImage {text first : Text}
    (hend : (LeadingBlock.ofDocument (.ofText text)).Ended) (hfirst : LinkLine first)
    {later : List Text} (hlater : ∀ m ∈ later, LinkLine m) :
    later.foldl (fun t m => insertImage m t) (insertImage first text) =
      insertImage (stacked text.lineBreak first later) text := by
  induction later generalizing text first with
  | nil => rfl
  | cons m later ih =>
    have hm := hlater m List.mem_cons_self
    obtain ⟨head, rest, h⟩ := exists_topped hend hfirst
    rw [List.foldl_cons, ih h.ended hm fun k hk => hlater k (List.mem_cons_of_mem _ hk),
      h.insert_insert_eq hfirst (stacked_ne_nil hm.ne_nil later), h.lineBreak, ← stacked_append]
    rfl

/-- An image put in above another comes to stand directly above it, as if both had been put in at
once, and the leading block and its templates stay. So do images put in one after the other. -/
theorem insertImage_insertImage {text first : Text}
    (hend : (LeadingBlock.ofDocument (.ofText text)).Ended) (hfirst : LinkLine first) :
    (∃ head rest, insertImage first text = head ++ (first ++ rest) ∧
      (LeadingBlock.ofDocument (.ofText (insertImage first text))).text = head ∧
      (ofText (insertImage first text)).leadingSpans = (ofText text).leadingSpans ∧
      ∀ second, second ≠ [] →
        insertImage second (insertImage first text) =
          insertImage (second ++ (text.lineBreak ++ first)) text ∧
        insertImage second (insertImage first text) =
          head ++ (second ++ (text.lineBreak ++ (first ++ rest)))) ∧
    ∀ later, (∀ m ∈ later, LinkLine m) →
      later.foldl (fun t m => insertImage m t) (insertImage first text) =
        insertImage (stacked text.lineBreak first later) text := by
  obtain ⟨head, rest, h⟩ := exists_topped hend hfirst
  exact ⟨⟨head, rest, h.insert_eq first hfirst.ne_nil, h.block, h.spans, fun second hs =>
    ⟨h.insert_insert_eq hfirst hs, h.insert_insert hfirst hs⟩⟩,
    fun _ hlater => foldl_insertImage hend hfirst hlater⟩

/-- A template and a comment behind it, on lines that end in a carriage return and a line feed. -/
def notedArticle : Text :=
  "\x7b\x7bBox\x7d\x7d\r\n<!-- b -->a\r\nc".toList

theorem insertImage_insertImage_notedArticle :
    let a : Text := "[[File:A]]".toList
    let b : Text := "[[File:B|c]]".toList
    let c : Text := "[[C]]".toList
    (∃ head rest, insertImage a notedArticle = head ++ (a ++ rest) ∧
      insertImage b (insertImage a notedArticle) =
        head ++ (b ++ ("\r\n".toList ++ (a ++ rest)))) ∧
    insertImage c (insertImage b (insertImage a notedArticle)) =
      insertImage "[[C]]\r\n[[File:B|c]]\r\n[[File:A]]".toList notedArticle := by
  intro a b c
  have hend : (LeadingBlock.ofDocument (.ofText notedArticle)).Ended := by decide +kernel
  have hline : ∀ m ∈ [a, b, c], LinkLine m := by
    intro m hm
    have hall : LexemeKind.linkOpen.literal <+: m ∧ LexemeKind.linkClose.literal <:+ m ∧
        '\n' ∉ m := by
      revert m
      decide
    exact ⟨hall.1, hall.2.1, hall.2.2⟩
  have hbreak : notedArticle.lineBreak = "\r\n".toList := by decide
  obtain ⟨⟨head, rest, hfirst, -, -, hsecond⟩, hlater⟩ :=
    insertImage_insertImage hend (hline a List.mem_cons_self)
  rw [hbreak] at hsecond hlater
  exact ⟨⟨head, rest, hfirst, (hsecond b (List.cons_ne_nil _ _)).2⟩,
    hlater [b, c] fun m hm => hline m (List.mem_cons_of_mem _ hm)⟩

end Wikitext
