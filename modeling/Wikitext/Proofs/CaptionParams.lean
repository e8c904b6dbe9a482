import Wikitext.Caption
import Wikitext.Proofs.LinkEditing
import Wikitext.Proofs.TreeRendering

/-! Which parameters are captions, when a blank is put in front of one or text behind it. A blank in
front of a parameter shows nothing and leaves it what it is, unless the parameter begins with `=`:
then the blank is read as a name. -/

namespace Wikitext

open Step Document

/-- `Led w r r'`: in `r'` the text `w` comes before all that `r` has read. -/
inductive Reading.Led (w : Text) : Reading → Reading → Prop
  | outside (current : Text) : Led w ⟨current, []⟩ ⟨w ++ current, []⟩
  | inside (current outer : Text) (around : List Text) :
      Led w ⟨current, around ++ [outer]⟩ ⟨current, around ++ [w ++ outer]⟩

namespace Reading.Led

variable {w : Text} {r r' : Reading}

theorem text_eq (h : Led w r r') : r'.text = w ++ r.text := by
  cases h <;> simp [Reading.text]

theorem write (h : Led w r r') (t : Text) : Led w (r.write t) (r'.write t) := by
  cases h with
  | outside current =>
    rw [Reading.write, Reading.write, List.append_assoc]
    exact .outside _
  | inside current outer around => exact .inside _ outer around

theorem readOutside (h : Led w r r') (s : Step) : Led w (r.readOutside s) (r'.readOutside s) := by
  unfold Reading.readOutside
  cases s.kind with
  | linkOpen =>
    cases h with
    | outside current => exact .inside [] current []
    | inside current outer around => exact .inside [] outer (current :: around)
  | linkClose =>
    cases h with
    | outside current => exact .outside current
    | inside current outer around =>
      cases around with
      | nil =>
        have ho := Led.outside (w := w) (outer ++ current)
        rwa [← List.append_assoc] at ho
      | cons a around => exact .inside _ outer around
  | pipe =>
    cases h with
    | outside current => exact (Led.outside current).write s.text
    | inside current outer around =>
      rw [if_neg (by simp), if_neg (by simp)]
      exact .inside [] outer around
  | newline | text => exact h.write s.text
  | comment | templateOpen | templateClose => exact h

theorem foldl_read (h : Led w r r') (ss : List Step) :
    Led w (ss.foldl Reading.read r) (ss.foldl Reading.read r') := by
  induction ss generalizing r r' with
  | nil => exact h
  | cons s ss ih =>
    rw [List.foldl_cons, List.foldl_cons]
    apply ih
    rw [Reading.read, Reading.read]
    split
    · exact h
    · exact h.readOutside s

end Reading.Led

/-- A cell that begins no marker and is put in front of others stands alone, or joins the text that
they begin with. -/
theorem Step.scanFrom_cons_text {b : Cell} (hb : isMarkerChar b.char = false) (d : Depths)
    (cells : List Cell) : ∃ x ss, scanFrom d (b :: cells) = ⟨.text, b :: x, d⟩ :: ss ∧
      (x = [] ∧ scanFrom d cells = ss ∨ scanFrom d cells = ⟨.text, x, d⟩ :: ss) := by
  have hcells : cells.takeWhile (!isMarkerChar ·.char) ++ cells.dropWhile (!isMarkerChar ·.char) =
      cells := List.takeWhile_append_dropWhile
  have hx : ∀ a ∈ cells.takeWhile (!isMarkerChar ·.char), isMarkerChar a.char = false := by
    intro a ha
    simpa using List.mem_takeWhile_imp ha
  have hz : ∀ a ∈ (cells.dropWhile (!isMarkerChar ·.char)).head?, isMarkerChar a.char = true := by
    intro a ha
    have hhead := List.head?_dropWhile_not (!isMarkerChar ·.char) cells
    rw [Option.mem_def.mp ha] at hhead
    simpa using hhead
  generalize cells.takeWhile (!isMarkerChar ·.char) = x at hcells hx
  generalize cells.dropWhile (!isMarkerChar ·.char) = z at hcells hz
  have htext {y : List Cell} (hne : y ≠ []) (hy : ∀ a ∈ y, isMarkerChar a.char = false) :
      scanFrom d (y ++ z) = ⟨.text, y, d⟩ :: scanFrom d z := by
    rw [Step.scanFrom_eq, next?_lexeme (l := ⟨.text, y⟩) (.run hne hy hz) nofun]
    rfl
  have hbx : ∀ a ∈ b :: x, isMarkerChar a.char = false := by
    intro a ha
    rcases List.mem_cons.mp ha with rfl | ha
    · exact hb
    · exact hx a ha
  rw [← hcells]
  refine ⟨x, scanFrom d z, htext (List.cons_ne_nil _ _) hbx, ?_⟩
  by_cases hne : x = []
  · exact .inl ⟨hne, by rw [hne, List.nil_append]⟩
  · exact .inr (htext hne hx)

namespace Text

theorem trim_blank_cons (t : Text) : trim (' ' :: t) = t.trim := rfl

theorem mem_dropWhile_isWhite {t : Text} {c : Char} (hc : isWhite c = false) :
    c ∈ t.dropWhile isWhite ↔ c ∈ t := by
  constructor
  · exact fun h => (List.dropWhile_sublist isWhite).subset h
  · intro h
    rw [← List.takeWhile_append_dropWhile (p := isWhite) (l := t), List.mem_append] at h
    refine h.resolve_left fun htake => ?_
    have hwhite := List.mem_takeWhile_imp htake
    simp [hc] at hwhite

theorem mem_trim {t : Text} {c : Char} (hc : isWhite c = false) : c ∈ t.trim ↔ c ∈ t := by
  rw [trim, trimEnd, List.mem_reverse, mem_dropWhile_isWhite hc, List.mem_reverse, trimStart,
    mem_dropWhile_isWhite hc]

theorem isWhite_of_trim_eq_nil {t : Text} (h : t.trim = []) : ∀ c ∈ t, isWhite c = true := by
  intro c hc
  by_contra hno
  have hmem := (mem_trim (Bool.eq_false_iff.mpr hno)).mpr hc
  rw [h] at hmem
  exact List.not_mem_nil hmem

end Text

theorem stripTags_append_of_notMem {p : Text} (hp : '<' ∉ p) (t : Text) :
    stripTags (p ++ t) = p ++ stripTags t := by
  obtain ⟨r, hr⟩ := exists_stripped t
  rw [hr.stripTags_eq]
  apply Stripped.stripTags_eq
  cases hr with
  | done h =>
    refine .done fun a q ha => ?_
    rcases List.append_eq_append_iff.mp ha with ⟨c, rfl, hc⟩ | ⟨c, rfl, hc⟩
    · exact h _ _ hc
    · cases c with
      | nil => exact h [] q hc.symm
      | cons x c =>
        obtain ⟨rfl, -⟩ := List.cons.inj hc
        simp at hp
  | @tag p' _ _ _ hp' hb h =>
    have hpp : '<' ∉ p ++ p' := fun hm => (List.mem_append.mp hm).elim hp hp'
    have ht := Stripped.tag hpp hb h
    simpa only [List.append_assoc] using ht

/-- A blank in front of a text shows nothing. -/
theorem displayText_blank_cons {t : Text} (h : Text.Parted [' '] t) :
    displayText (' ' :: t) = displayText t := by
  have hcells : Cell.ofText (' ' :: t) = Cell.blank :: Cell.ofText t := by
    have ha := Text.ofText_append h
    rwa [Cell.ofText_singleton] at ha
  have hled : Reading.Led [' '] ((ofText t).steps.foldl Reading.read .empty)
      ((ofText (' ' :: t)).steps.foldl Reading.read .empty) := by
    rw [Document.steps, Document.steps, cells_ofText, cells_ofText, hcells, scan, scan]
    obtain ⟨x, ss, hblank, hx⟩ :=
      scanFrom_cons_text (b := Cell.blank) rfl .zero (Cell.ofText t)
    rw [hblank]
    rcases hx with ⟨rfl, hx⟩ | hx
    · rw [hx]
      exact (Reading.Led.outside []).foldl_read ss
    · rw [hx]
      exact (Reading.Led.outside (Cell.chars x)).foldl_read ss
  rw [displayText, displayText, hled.text_eq, stripTags_append_of_notMem (by decide)]
  rfl

/-- A text that is a name when `=` follows it. -/
def IsName (name : Text) : Prop :=
  name.trim = [] ∧ ' ' ∈ name ∨ name.trim ≠ [] ∧ ∀ c ∈ name.trim, isNameChar c = true

theorem isNamedParam_append_equals {name : Text} (h : '=' ∉ name) (value : Text) :
    isNamedParam (name ++ '=' :: value) = true ↔ IsName name := by
  have htake : (name ++ '=' :: value).takeWhile (· ≠ '=') = name := by
    rw [List.takeWhile_append_of_pos (keep_of_notMem h)]
    exact List.append_nil name
  simp only [isNamedParam, htake, IsName]
  by_cases hn : name.trim = [] <;> simp [hn]

theorem isNamedParam_of_notMem {p : Text} (h : '=' ∉ p) : isNamedParam p = false := by
  have htake : p.takeWhile (· ≠ '=') = p := List.takeWhile_eq_self_iff.mpr (keep_of_notMem h)
  simp only [isNamedParam, htake, Nat.lt_irrefl, decide_false, Bool.false_and]

theorem exists_name {p : Text} (h : isNamedParam p = true) :
    ∃ name value, p = name ++ '=' :: value ∧ '=' ∉ name ∧ IsName name := by
  by_cases he : '=' ∈ p
  · obtain ⟨name, value, rfl, hname⟩ := List.eq_append_cons_of_mem he
    exact ⟨name, value, rfl, hname, (isNamedParam_append_equals hname value).mp h⟩
  · rw [isNamedParam_of_notMem he] at h
    cases h

theorem IsName.blank_cons {name : Text} (h : IsName name) : IsName (' ' :: name) := by
  rw [IsName, Text.trim_blank_cons]
  exact h.imp (And.imp_right fun _ => List.mem_cons_self) id

theorem isNamedParam_blank_cons {p : Text} (h : isNamedParam p = true) :
    isNamedParam (' ' :: p) = true := by
  obtain ⟨name, value, rfl, he, hname⟩ := exists_name h
  rw [← List.cons_append, isNamedParam_append_equals (by simpa using he)]
  exact hname.blank_cons

theorem isNamedParam_append {p : Text} (h : isNamedParam p = true) (t : Text) :
    isNamedParam (p ++ t) = true := by
  obtain ⟨name, value, rfl, he, hname⟩ := exists_name h
  rw [List.append_assoc, List.cons_append]
  exact (isNamedParam_append_equals he _).mpr hname

/-- A blank names only what begins with `=`. -/
theorem head?_of_isNamedParam_blank_cons {p : Text} (h : isNamedParam (' ' :: p) = true)
    (hp : isNamedParam p = false) (hw : p.head?.any isWhite = false) : p.head? = some '=' := by
  obtain ⟨name, value, hname, he, hn⟩ := exists_name h
  cases name with
  | nil => simp at hname
  | cons a name =>
    obtain ⟨rfl, rfl⟩ := List.cons.inj hname
    cases name with
    | nil => rfl
    | cons c name =>
      -- What follows the blank is a name without it.
      have hc : Text.trim (c :: name) ≠ [] := by
        intro hnil
        have hwhite := Text.isWhite_of_trim_eq_nil hnil c List.mem_cons_self
        simp [hwhite] at hw
      rw [IsName, Text.trim_blank_cons] at hn
      have hword := hn.resolve_left fun hnil => hc hnil.1
      have hnamed : isNamedParam (c :: name ++ '=' :: value) = true :=
        (isNamedParam_append_equals (by simpa using he) value).mpr (.inr hword)
      cases hnamed.symm.trans hp

theorem isSizeParam_blank_cons (p : Text) : isSizeParam (' ' :: p) = isSizeParam p := rfl

theorem isNamedParam_append_bar {p t : Text} (h : isNamedParam p = false) :
    isNamedParam (p ++ '|' :: t) = false := by
  rw [Bool.eq_false_iff]
  intro hnamed
  obtain ⟨name, value, he, hname, hn⟩ := exists_name hnamed
  rcases List.append_eq_append_iff.mp he with ⟨r, rfl, hr⟩ | ⟨r, rfl, hr⟩
  · cases r with
    | nil => cases (List.cons.inj hr).1
    | cons c r =>
      -- The bar would be part of the name.
      obtain ⟨rfl, -⟩ := List.cons.inj hr
      have hbar : '|' ∈ Text.trim (p ++ '|' :: r) := (Text.mem_trim rfl).mpr (by simp)
      rcases hn with ⟨hnil, -⟩ | ⟨-, hchars⟩
      · rw [hnil] at hbar
        exact List.not_mem_nil hbar
      · cases hchars _ hbar
  · cases r with
    | nil => cases (List.cons.inj hr).1
    | cons c r =>
      obtain ⟨rfl, -⟩ := List.cons.inj hr
      rw [(isNamedParam_append_equals hname r).mpr hn] at h
      cases h

/-- A width or a height, or both with an `x` between them, in digits. -/
inductive Extent : Text → Prop
  | width {w : Text} (hw : ∀ c ∈ w, isDigit c = true) (hne : w ≠ []) : Extent w
  | height {w h : Text} (hw : ∀ c ∈ w, isDigit c = true) (hh : ∀ c ∈ h, isDigit c = true)
      (hne : h ≠ []) : Extent (w ++ 'x' :: h)

theorem isSize_append (e : Text) : isSize (e ++ ['p', 'x']) = true ↔
    e.reverse.takeWhile isDigit ≠ [] ∧ (e.reverse.dropWhile isDigit = [] ∨
      ∃ w, e.reverse.dropWhile isDigit = 'x' :: w ∧ ∀ c ∈ w, isDigit c = true) := by
  have hrev : (e ++ ['p', 'x']).reverse = 'x' :: 'p' :: e.reverse := by simp
  simp only [isSize, hrev]
  cases e.reverse.dropWhile isDigit <;> simp

theorem Extent.isSize {e : Text} (h : Extent e) : isSize (e ++ ['p', 'x']) = true := by
  rw [isSize_append]
  cases h with
  | width hw hne =>
    have hall : ∀ c ∈ e.reverse, isDigit c = true := by simpa using hw
    rw [List.takeWhile_eq_self_iff.mpr hall, List.dropWhile_eq_nil_iff.mpr hall]
    exact ⟨by simpa using hne, .inl rfl⟩
  | @height w h hw hh hne =>
    have hall : ∀ c ∈ h.reverse, isDigit c = true := by simpa using hh
    have hx : isDigit 'x' = false := by decide
    have hrev : (w ++ 'x' :: h).reverse = h.reverse ++ 'x' :: w.reverse := by simp
    rw [hrev, List.takeWhile_append_of_pos hall, List.dropWhile_append_of_pos hall,
      List.dropWhile_cons_of_neg (by simp [hx])]
    exact ⟨by simp [hne], .inr ⟨w.reverse, rfl, by simpa using hw⟩⟩

theorem exists_extent {t : Text} (h : isSize t = true) :
    ∃ e, Extent e ∧ t = e ++ ['p', 'x'] := by
  obtain ⟨e, rfl⟩ : ∃ e, t = e ++ ['p', 'x'] := by
    rw [isSize] at h
    split at h
    · rename_i digits hr
      exact ⟨digits.reverse, by simpa using congrArg List.reverse hr⟩
    · cases h
  refine ⟨e, ?_, rfl⟩
  obtain ⟨hne, hwidth⟩ := (isSize_append e).mp h
  have happ := List.takeWhile_append_dropWhile (p := isDigit) (l := e.reverse)
  have hheight : ∀ c ∈ (e.reverse.takeWhile isDigit).reverse, isDigit c = true := fun c hc =>
    List.mem_takeWhile_imp (List.mem_reverse.mp hc)
  rw [← e.reverse_reverse, ← happ, List.reverse_append]
  rcases hwidth with hnil | ⟨w, hw, hdigits⟩
  · rw [hnil]
    exact .width hheight (by simpa using hne)
  · rw [hw, List.reverse_cons, List.append_assoc, List.singleton_append]
    exact .height (by simpa using hdigits) hheight (by simpa using hne)

theorem Extent.chars {e : Text} (h : Extent e) : ∀ c ∈ e, isDigit c = true ∨ c = 'x' := by
  intro c hc
  cases h with
  | width hw => exact .inl (hw c hc)
  | height hw hh =>
    rcases List.mem_append.mp hc with hc | hc
    · exact .inl (hw c hc)
    · exact (List.mem_cons.mp hc).symm.imp_left (hh c)

theorem isSize_chars {t : Text} (h : isSize t = true) :
    ∀ c ∈ t, isDigit c = true ∨ c = 'x' ∨ c = 'p' := by
  obtain ⟨e, he, rfl⟩ := exists_extent h
  intro c hc
  rcases List.mem_append.mp hc with hc | hc
  · exact (he.chars c hc).imp_right .inl
  · simp only [List.mem_cons, List.not_mem_nil, or_false] at hc
    exact .inr hc.symm

theorem isSizeParam_append_bar (p t : Text) : isSizeParam (p ++ '|' :: t) = false := by
  rw [isSizeParam, Bool.eq_false_iff]
  intro h
  have hbar : '|' ∈ Text.trim (p ++ '|' :: t) := (Text.mem_trim rfl).mpr (by simp)
  have hno : ¬ (isDigit '|' = true ∨ '|' = 'x' ∨ '|' = 'p') := by decide
  exact hno (isSize_chars h _ hbar)

namespace MediaLink

variable {keywords : List Text} {p : Text}

theorem isCaption_of_named (h : isNamedParam p = true) : isCaption keywords p = false := by
  simp [isCaption, h]

theorem isNamedParam_of_isCaption (h : isCaption keywords p = true) : isNamedParam p = false := by
  simp only [isCaption, Bool.and_eq_true, Bool.not_eq_true'] at h
  exact h.1.1.2

theorem isCaption_spaced (h : p.head? ≠ some '=') :
    isCaption keywords (AltPlace.spaced p) = isCaption keywords p := by
  rw [AltPlace.spaced]
  split
  · rfl
  · rename_i hw
    have hnamed : isNamedParam (' ' :: p) = isNamedParam p := by
      cases hp : isNamedParam p with
      | true => exact isNamedParam_blank_cons hp
      | false =>
        rw [Bool.eq_false_iff]
        exact fun hblank => h (head?_of_isNamedParam_blank_cons hblank hp (by simpa using hw))
    rw [isCaption, isCaption, hnamed, isSizeParam_blank_cons, Text.trim_blank_cons]

theorem isCaption_spaced_equals (h : p.head? = some '=') :
    isCaption keywords (AltPlace.spaced p) = false := by
  obtain ⟨value, rfl⟩ := List.head?_eq_some_iff.mp h
  have hnamed : isNamedParam (' ' :: '=' :: value) = true :=
    (isNamedParam_append_equals (by decide : '=' ∉ [' ']) value).mpr (.inl ⟨rfl, by simp⟩)
  exact isCaption_of_named hnamed

theorem captionParam?_append (u v : List Text) : captionParam? keywords (u ++ v) =
    (captionParam? keywords v).or (captionParam? keywords u) := by
  rw [captionParam?, List.reverse_append, List.find?_append]
  rfl

theorem captionParam?_cons (v : List Text) : captionParam? keywords (p :: v) =
    (captionParam? keywords v).or (if isCaption keywords p then some p else none) := by
  rw [captionParam?, List.reverse_cons, List.find?_append, List.find?_singleton]
  rfl

theorem captionParam?_behind (u : List Text) {q : Text} (hq : isCaption keywords q = false) :
    captionParam? keywords (u ++ [p, q]) = captionParam? keywords (u ++ [p]) := by
  simp [captionParam?, hq]

theorem captionParam?_last (u : List Text) (hp : isCaption keywords p = true) :
    captionParam? keywords (u ++ [p]) = some p := by
  simp [captionParam?, hp]

/-- A parameter that is no caption, and a blank, in front of a parameter leave the caption as it is,
unless the caption is this parameter and begins with `=`. -/
theorem captionOf?_before (u v : List Text) {q : Text} (hq : isCaption keywords q = false)
    (hshown : displayText (AltPlace.spaced p) = displayText p) :
    captionOf? keywords (u ++ q :: AltPlace.spaced p :: v) = captionOf? keywords (u ++ p :: v) ∨
      p.head? = some '=' ∧ captionParam? keywords (u ++ p :: v) = some p ∧
        captionParam? keywords v = none := by
  simp only [captionOf?, captionParam?_append, captionParam?_cons, hq]
  cases hv : captionParam? keywords v with
  | some r => exact .inl rfl
  | none =>
    by_cases hhead : p.head? = some '='
    · cases hp : isCaption keywords p with
      | true => exact .inr ⟨hhead, rfl, rfl⟩
      | false => simp [isCaption_spaced_equals hhead]
    · rw [isCaption_spaced hhead]
      cases hp : isCaption keywords p with
      | true => simp [hshown]
      | false => simp

theorem isCaption_append_bar {t : Text} (hp : isCaption keywords p = true)
    (ht : Text.trim (p ++ '|' :: t) ∉ keywords) :
    isCaption keywords (p ++ '|' :: t) = true := by
  have hbar : '|' ∈ Text.trim (p ++ '|' :: t) := (Text.mem_trim rfl).mpr (by simp)
  have hne : Text.trim (p ++ '|' :: t) ≠ [] := List.ne_nil_of_mem hbar
  simp [isCaption, hne, ht, isNamedParam_append_bar (isNamedParam_of_isCaption hp),
    isSizeParam_append_bar]

theorem captionOf?_eq_some {params : List Text} {c : Text}
    (h : captionOf? keywords params = some c) :
    ∃ p ∈ params, isCaption keywords p = true ∧ displayText p = c ∧
      captionParam? keywords params = some p := by
  obtain ⟨p, hp, rfl⟩ := Option.map_eq_some_iff.mp (Option.filter_eq_some_iff.mp h).1
  have hmem : p ∈ params := by simpa using List.mem_of_find?_eq_some hp
  exact ⟨p, hmem, List.find?_some hp, rfl, hp⟩

end MediaLink

end Wikitext
