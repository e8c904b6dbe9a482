import Wikitext.Link.AltText
import Wikitext.Proofs.CaptionParams
import Wikitext.Proofs.ShownText

/-! The grammars of the options of a media link. A size or a name may be cut out of its white space
in several ways, since a blank belongs to a name and digits stand on both sides of an `x`; what is
tested is the trimmed text. A parameter for alternative text is an option, so a link has the same
caption without it. -/

namespace Wikitext

/-- The code points of white space. -/
def whiteCodes : List Nat :=
  List.range' 0x09 5 ++ [0x20, 0x85, 0xA0, 0x1680] ++ List.range' 0x2000 11 ++
    [0x2028, 0x2029, 0x202F, 0x205F, 0x3000]

theorem mem_whiteCodes {c : Char} (h : isWhite c = true) : c.toNat ∈ whiteCodes := by
  simp only [isWhite, Bool.or_eq_true, Bool.and_eq_true, decide_eq_true_eq] at h
  simp only [whiteCodes, List.mem_append, List.mem_range'_1, List.mem_cons, List.not_mem_nil,
    or_false]
  omega

theorem not_word_of_isWhite {c : Char} (h : isWhite c = true) :
    isWord c = false ∧ isDigit c = false := by
  have hall : ∀ n ∈ whiteCodes,
      isWord (Char.ofNat n) = false ∧ isDigit (Char.ofNat n) = false := by decide +kernel
  have hc := hall _ (mem_whiteCodes h)
  rwa [Char.ofNat_toNat] at hc

/-- A blank is the only white space in a name. -/
theorem eq_blank_of_isNameChar {c : Char} (h : isNameChar c = true) (hw : isWhite c = true) :
    c = ' ' := by
  simp only [isNameChar, (not_word_of_isWhite hw).1, Bool.false_or, Bool.or_eq_true,
    decide_eq_true_eq] at h
  rcases h with rfl | rfl
  · cases hw
  · rfl

namespace Text

variable {t u v : Text}

theorem trim_white_append (hu : ∀ c ∈ u, isWhite c = true) (t : Text) :
    trim (u ++ t) = t.trim := by
  rw [trim, trim, trimStart, List.dropWhile_append_of_pos hu, trimStart]

theorem trim_eq_nil (h : ∀ c ∈ t, isWhite c = true) : t.trim = [] := by
  have hnil := trim_white_append h []
  rwa [List.append_nil] at hnil

theorem trim_append_white (hv : ∀ c ∈ v, isWhite c = true) (t : Text) :
    trim (t ++ v) = t.trim := by
  have hend : ∀ s : Text, (s ++ v).trimEnd = s.trimEnd := fun s => by
    rw [trimEnd, List.reverse_append, List.dropWhile_append_of_pos (by simpa using hv), trimEnd]
  by_cases ht : ∀ c ∈ t, isWhite c = true
  · rw [trim_white_append ht, trim_eq_nil hv, trim_eq_nil ht]
  · have hstart : t.trimStart ≠ [] := fun hnil => ht (List.dropWhile_eq_nil_iff.mp hnil)
    have happ : (t ++ v).trimStart = t.trimStart ++ v := by
      rw [trimStart, List.dropWhile_append, if_neg (by simpa [trimStart] using hstart), trimStart]
    rw [trim, happ, hend, trim]

theorem exists_trim (t : Text) : ∃ u v, t = u ++ (t.trim ++ v) ∧
    (∀ c ∈ u, isWhite c = true) ∧ ∀ c ∈ v, isWhite c = true := by
  refine ⟨t.takeWhile isWhite, (t.trimStart.reverse.takeWhile isWhite).reverse, ?_,
    fun c hc => List.mem_takeWhile_imp hc,
    fun c hc => List.mem_takeWhile_imp (List.mem_reverse.mp hc)⟩
  rw [trim, trimEnd, ← List.reverse_append, List.takeWhile_append_dropWhile, List.reverse_reverse,
    trimStart, List.takeWhile_append_dropWhile]

theorem trim_eq_self (h : ∀ c ∈ t, isWhite c = false) : t.trim = t := by
  have hstart : t.trimStart = t := by
    refine List.dropWhile_eq_self_iff.mpr fun hpos => ?_
    rw [h _ (List.getElem_mem hpos)]
    exact Bool.false_ne_true
  have hend : t.rdropWhile isWhite = t := by
    refine List.rdropWhile_eq_self_iff.mpr fun hne => ?_
    rw [h _ (List.getLast_mem hne)]
    exact Bool.false_ne_true
  rw [trim, hstart]
  exact hend

end Text

/-- A size between white space. -/
inductive SizeParam : Text → Prop
  | spaced {u e v : Text} (hu : ∀ c ∈ u, isWhite c = true) (he : Extent e)
      (hv : ∀ c ∈ v, isWhite c = true) : SizeParam (u ++ (e ++ 'p' :: 'x' :: v))

/-- A name between white space, then `=` and anything. -/
inductive NamedParam : Text → Prop
  | assigned {u n v : Text} (hu : ∀ c ∈ u, isWhite c = true)
      (hn : ∀ c ∈ n, isNameChar c = true) (hne : n ≠ []) (hv : ∀ c ∈ v, isWhite c = true)
      (value : Text) : NamedParam (u ++ (n ++ (v ++ '=' :: value)))

theorem isSizeParam_iff {p : Text} : isSizeParam p = true ↔ SizeParam p := by
  constructor
  · intro h
    obtain ⟨u, v, hp, hu, hv⟩ := p.exists_trim
    obtain ⟨e, he, htrim⟩ := exists_extent h
    rw [hp, htrim, List.append_assoc]
    exact .spaced hu he hv
  · intro h
    cases h with | @spaced u e v hu he hv
    have hsize := he.isSize
    -- No character of a size is white space, so nothing of it is trimmed off.
    have hinked : ∀ c ∈ e ++ ['p', 'x'], isWhite c = false := by
      intro c hc
      rw [Bool.eq_false_iff]
      intro hw
      rcases isSize_chars hsize c hc with hd | rfl | rfl
      · rw [(not_word_of_isWhite hw).2] at hd
        cases hd
      · cases hw
      · cases hw
    have hcore : u ++ (e ++ 'p' :: 'x' :: v) = u ++ (e ++ ['p', 'x'] ++ v) := by simp
    rwa [isSizeParam, hcore, Text.trim_white_append hu, Text.trim_append_white hv,
      Text.trim_eq_self hinked]

theorem isName_iff {name : Text} : IsName name ↔ ∃ u n v, name = u ++ (n ++ v) ∧
    (∀ c ∈ u, isWhite c = true) ∧ (∀ c ∈ n, isNameChar c = true) ∧ n ≠ [] ∧
    ∀ c ∈ v, isWhite c = true := by
  constructor
  · rintro (⟨hnil, hblank⟩ | ⟨hne, hchars⟩)
    · -- The name is one of the blanks.
      have hwhite := Text.isWhite_of_trim_eq_nil hnil
      obtain ⟨u, v, rfl⟩ := List.append_of_mem hblank
      exact ⟨u, [' '], v, rfl, fun c hc => hwhite c (by simp [hc]), by decide, by simp,
        fun c hc => hwhite c (by simp [hc])⟩
    · obtain ⟨u, v, hname, hu, hv⟩ := name.exists_trim
      exact ⟨u, _, v, hname, hu, hchars, hne, hv⟩
  · rintro ⟨u, n, v, rfl, hu, hn, hne, hv⟩
    have htrim : Text.trim (u ++ (n ++ v)) = n.trim := by
      rw [Text.trim_white_append hu, Text.trim_append_white hv]
    rw [IsName, htrim]
    by_cases hnil : n.trim = []
    · obtain ⟨c, hc⟩ := List.exists_mem_of_ne_nil n hne
      obtain rfl := eq_blank_of_isNameChar (hn c hc) (Text.isWhite_of_trim_eq_nil hnil c hc)
      exact .inl ⟨hnil, by simp [hc]⟩
    · exact .inr ⟨hnil, fun c hc => hn c (n.trim_sublist.subset hc)⟩

theorem isNamedParam_iff {p : Text} : isNamedParam p = true ↔ NamedParam p := by
  constructor
  · intro h
    obtain ⟨name, value, rfl, -, hname⟩ := exists_name h
    obtain ⟨u, n, v, rfl, hu, hn, hne, hv⟩ := isName_iff.mp hname
    rw [List.append_assoc, List.append_assoc]
    exact .assigned hu hn hne hv value
  · intro h
    cases h with | @assigned u n v hu hn hne hv value
    have hequals : '=' ∉ u ++ (n ++ v) := by
      rw [List.mem_append, List.mem_append]
      rintro (h | h | h)
      · cases hu _ h
      · cases hn _ h
      · cases hv _ h
    have hnamed := (isNamedParam_append_equals hequals value).mpr
      (isName_iff.mpr ⟨u, n, v, rfl, hu, hn, hne, hv⟩)
    rwa [List.append_assoc, List.append_assoc] at hnamed

theorem namedParam_of_isAltParam {names : List Text} {p : Text}
    (hnames : ∀ name ∈ names, ∀ c ∈ name, isNameChar c = true)
    (h : isAltParam names p = true) : NamedParam p := by
  simp only [isAltParam, List.any_eq_true, Bool.and_eq_true, decide_eq_true_eq,
    List.isPrefixOf_iff_prefix] at h
  obtain ⟨name, hmem, hne, value, hvalue⟩ := h
  have hp : p.takeWhile isWhite ++ (name ++ ([] ++ '=' :: value)) = p := by
    rw [List.nil_append, ← List.singleton_append, ← List.append_assoc name, hvalue]
    exact List.takeWhile_append_dropWhile
  rw [← hp]
  exact .assigned (fun c hc => List.mem_takeWhile_imp hc) (hnames name hmem) hne (by simp) value

namespace MediaLink

variable {keywords : List Text}

theorem captionParam?_filter {keep : Text → Bool}
    (h : ∀ p, keep p = false → isCaption keywords p = false) (params : List Text) :
    captionParam? keywords (params.filter keep) = captionParam? keywords params := by
  rw [captionParam?, ← List.filter_reverse, List.find?_filter]
  apply List.find?_congr
  intro p _
  cases hk : keep p with
  | true => simp
  | false => simp [h p hk]

/-- A link without its parameters for alternative text. -/
def withoutAlt (names : List Text) (l : MediaLink) : MediaLink :=
  { l with params := l.params.filter fun p => !isAltParam names p }

/-- Which parameters are options. A size is a width, a height behind an `x`, or both, then `px`; a
name is of characters of words, hyphens and blanks and stands before `=`; white space may surround
either. So a parameter for alternative text is never a caption when its name can be one, and a link
has the same caption without it. -/
theorem caption?_withoutAlt :
    (∀ p, isSizeParam p = true ↔ SizeParam p) ∧ (∀ p, isNamedParam p = true ↔ NamedParam p) ∧
    ∀ names : List Text, (∀ name ∈ names, ∀ c ∈ name, isNameChar c = true) → ∀ keywords,
      (∀ p, isAltParam names p = true → isCaption keywords p = false) ∧
      ∀ l : MediaLink, (l.withoutAlt names).caption? keywords = l.caption? keywords := by
  refine ⟨fun p => isSizeParam_iff, fun p => isNamedParam_iff, fun names hnames keywords => ?_⟩
  have hoption (p : Text) (h : isAltParam names p = true) : isCaption keywords p = false :=
    isCaption_of_named (isNamedParam_iff.mpr (namedParam_of_isAltParam hnames h))
  refine ⟨hoption, fun l => ?_⟩
  rw [caption?, caption?, captionOf?, captionOf?, withoutAlt, captionParam?_filter]
  intro p hp
  exact hoption p (by simpa using hp)

/-- An image with its alternative text behind the caption, and a size between them. -/
def tabbyImage : Text :=
  "[[File:Cat.jpg|thumb|A cat| x220px| alternative text=A tabby]]".toList

theorem caption?_withoutAlt_tabbyImage :
    let names := ["alt", "alternative text"].map String.toList
    let keywords := ["thumb".toList]
    (∀ name ∈ names, ∀ c ∈ name, isNameChar c = true) ∧
      ∃ l, (Document.ofText tabbyImage).mediaLinks ["File".toList] = .ok [l] ∧
        l.params = ["thumb", "A cat", " x220px", " alternative text=A tabby"].map String.toList ∧
        SizeParam " x220px".toList ∧
        isAltParam names " alternative text=A tabby".toList = true ∧
        isCaption keywords " alternative text=A tabby".toList = false ∧
        (l.withoutAlt names).params = ["thumb", "A cat", " x220px"].map String.toList ∧
        (l.withoutAlt names).caption? keywords = some "A cat".toList := by
  intro names keywords
  let l : MediaLink := ⟨"File".toList, "Cat.jpg".toList,
    ["thumb", "A cat", " x220px", " alternative text=A tabby"].map String.toList, ⟨0, 62⟩, ⟨0, 62⟩⟩
  have hnames : ∀ name ∈ names, ∀ c ∈ name, isNameChar c = true := by decide +kernel
  have hlinks : (Document.ofText tabbyImage).mediaLinks ["File".toList] = .ok [l] := by
    decide +kernel
  have halt : isAltParam names " alternative text=A tabby".toList = true := by decide +kernel
  have hshown : l.caption? keywords = some "A cat".toList := by decide +kernel
  obtain ⟨hsize, -, hoptions⟩ := caption?_withoutAlt
  obtain ⟨hoption, hsame⟩ := hoptions names hnames keywords
  exact ⟨hnames, l, hlinks, rfl, (hsize _).mp (by decide +kernel), halt, hoption _ halt,
    by decide +kernel, (hsame l).trans hshown⟩

end MediaLink

end Wikitext
