import Wikitext.Command.Run

/-! An article read from a file and from standard input. A text within the limit is read whole from
either. A larger one is refused for its size when it lies in a file; standard input is cut behind
the limit first, and where the cut divides a character what is left is not UTF-8. -/

namespace Wikitext

namespace Text

theorem toBytes_eq (t : Text) : t.toBytes = t.utf8Encode := by
  rw [toBytes, String.toUTF8_eq_toByteArray, String.toByteArray_ofList]

theorem toBytes_append (s t : Text) : (s ++ t).toBytes = s.toBytes ++ t.toBytes := by
  simp only [toBytes_eq, List.utf8Encode_append]

theorem size_toBytes (t : Text) : t.toBytes.size = t.byteLength := by
  rw [toBytes_eq]
  induction t with
  | nil => rfl
  | cons c r ih =>
    rw [List.utf8Encode_cons, ByteArray.size_append, ih, List.utf8Encode_singleton]
    simp

end Text

namespace Entry

theorem text?_eq_some {e : Entry} {t : Text} : e.text? = some t ↔ e = .file t.toBytes := by
  cases e with
  | directory => simp [text?]
  | file content =>
    simp only [text?, String.fromUTF8?, Entry.file.injEq, Text.toBytes]
    constructor
    · intro h
      split at h
      · cases h
        rw [String.ofList_toList]
        rfl
      · cases h
    · rintro rfl
      have hvalid := (String.ofList t).isValidUTF8
      rw [String.toUTF8_eq_toByteArray, dif_pos hvalid,
        show String.fromUTF8 _ hvalid = String.ofList t from rfl, Option.map_some,
        String.toList_ofList]

theorem toBytes_inj {s t : Text} (h : s.toBytes = t.toBytes) : s = t := by
  have hs : (file s.toBytes).text? = some s := text?_eq_some.mpr rfl
  rw [h, text?_eq_some.mpr rfl] at hs
  exact (Option.some.inj hs).symm

/-- The first bytes of a text are a text when they are whole characters of it. -/
theorem text?_extract {t p : Text} {n : Nat} (hn : n ≤ t.byteLength) :
    (file (t.toBytes.extract 0 n)).text? = some p ↔ p <+: t ∧ p.byteLength = n := by
  rw [text?_eq_some, Entry.file.injEq]
  rw [← Text.size_toBytes] at hn
  constructor
  · intro h
    constructor
    · have hall := ByteArray.extract_append_extract (a := t.toBytes) (i := 0) (j := n)
        (k := t.toBytes.size)
      rw [Nat.zero_min, Nat.max_eq_right hn, ByteArray.extract_zero_size, h, Text.toBytes_eq p,
        Text.toBytes_eq t] at hall
      exact List.isPrefix_of_utf8Encode_append_eq_utf8Encode _ hall
    · rw [← Text.size_toBytes p, ← h, ByteArray.size_extract]
      omega
  · rintro ⟨⟨q, rfl⟩, rfl⟩
    rw [Text.toBytes_append, ByteArray.extract_append_eq_left (Text.size_toBytes p).symm]

end Entry

namespace Command

theorem exists_of_bind {ε α β : Type} {x : Except ε α} {f : α → Except ε β} {b : β}
    (h : x.bind f = .ok b) : ∃ a, x = .ok a ∧ f a = .ok b := by
  cases x with
  | error e => cases h
  | ok a => exact ⟨a, rfl, h⟩

theorem eq_ok_of_toOption {ε α : Type} {x : Except ε α} {a : α} (h : x.toOption = some a) :
    x = .ok a := by
  cases x with
  | error e => cases h
  | ok b => exact congrArg Except.ok (Option.some.inj h)

theorem eq_error_of_casesOn {ε α : Type} {x : Except ε α} {e : ε}
    (h : x.casesOn (motive := fun _ => Option ε) some (fun _ => none) = some e) :
    x = .error e := by
  cases x with
  | error e' => exact congrArg Except.error (Option.some.inj h)
  | ok a => cases h

variable {w : World} {settings : Settings} {file : String} {t : Text}

/-- The text of what was read, unless it is too large. -/
def textWithin (settings : Settings) (file : String) (e : Entry) : Except Fault Text :=
  match e.text? with
  | none => .error .file
  | some t =>
    if settings.maxBytes < t.byteLength then
      .error (.refused (.tooLarge (displayName file) t.byteLength settings.maxBytes))
    else .ok t

theorem textWithin_eq (settings : Settings) (file : String) (e : Entry) :
    textWithin settings file e = (match e.text? with
      | none => throw Fault.file
      | some t => do
        checkSize settings file t.byteLength
        return t) := by
  rw [textWithin]
  cases e.text? with
  | none => rfl
  | some t =>
    simp only [checkSize]
    split <;> rfl

theorem readText_input (w : World) (settings : Settings) :
    readText w settings standardInput = textWithin settings standardInput
      (.file (w.input.extract 0 (min (settings.maxBytes + 1) Settings.largest))) := by
  simp only [readText, if_true, pure_bind, textWithin]
  cases Entry.text? _ with
  | none => rfl
  | some t =>
    simp only [checkSize]
    split <;> rfl

/-- A file is refused for its size before it is read. -/
theorem readText_file (w : World) (settings : Settings) (hfile : file ≠ standardInput) :
    readText w settings file = match w.look file with
      | none => .error .file
      | some e =>
        if settings.maxBytes < e.size then
          .error (.refused (.tooLarge (displayName file) e.size settings.maxBytes))
        else textWithin settings file e := by
  simp only [readText, if_neg hfile, textWithin_eq]
  cases w.look file with
  | none => rfl
  | some e =>
    simp only [checkSize]
    split <;> rfl

theorem textWithin_toBytes (settings : Settings) (file : String) (t : Text) :
    textWithin settings file (.file t.toBytes) = if settings.maxBytes < t.byteLength then
      .error (.refused (.tooLarge (displayName file) t.byteLength settings.maxBytes))
    else .ok t := by
  rw [textWithin, Entry.text?_eq_some.mpr rfl]

theorem eq_of_textWithin {e : Entry} (h : textWithin settings file e = .ok t) :
    e = .file t.toBytes := by
  rw [textWithin] at h
  split at h
  · cases h
  · rename_i ht
    split at h
    · cases h
    · cases h
      exact Entry.text?_eq_some.mp ht

theorem look_of_readText (hfile : file ≠ standardInput) (h : readText w settings file = .ok t) :
    w.look file = some (.file t.toBytes) := by
  rw [readText_file w settings hfile] at h
  split at h
  · cases h
  · rename_i e he
    split at h
    · cases h
    · rw [he, eq_of_textWithin h]

theorem readText_of_file (hfile : file ≠ standardInput)
    (h : w.look file = some (.file t.toBytes)) :
    readText w settings file = if settings.maxBytes < t.byteLength then
      .error (.refused (.tooLarge file t.byteLength settings.maxBytes)) else .ok t := by
  have hsize : (Entry.file t.toBytes).size = t.byteLength := t.size_toBytes
  have hname : displayName file = file := if_neg hfile
  rw [readText_file w settings hfile, h]
  simp only [hsize, textWithin_toBytes, hname]
  split <;> rfl

theorem readText_of_input (h : w.input = t.toBytes) (hlarge : t.byteLength ≤ Settings.largest)
    (hle : t.byteLength ≤ settings.maxBytes) : readText w settings standardInput = .ok t := by
  have hmost : t.toBytes.size ≤ min (settings.maxBytes + 1) Settings.largest := by
    rw [Text.size_toBytes]
    omega
  have hall : t.toBytes.extract 0 (min (settings.maxBytes + 1) Settings.largest) = t.toBytes := by
    rw [← Nat.max_eq_left hmost, ByteArray.extract_zero_max_size]
  rw [readText_input, h, hall, textWithin_toBytes, if_neg (Nat.not_lt.mpr hle)]

/-- Beyond the limit what the cut leaves is refused for its size, unless it is no text. -/
theorem readText_of_large_input (h : w.input = t.toBytes)
    (hlarge : t.byteLength ≤ Settings.largest) (hlt : settings.maxBytes < t.byteLength) :
    ((∃ p : Text, p <+: t ∧ p.byteLength = settings.maxBytes + 1) →
      readText w settings standardInput =
        .error (.refused (.tooLarge "<stdin>" (settings.maxBytes + 1) settings.maxBytes))) ∧
    ((¬ ∃ p : Text, p <+: t ∧ p.byteLength = settings.maxBytes + 1) →
      readText w settings standardInput = .error .file) := by
  have hmost : min (settings.maxBytes + 1) Settings.largest = settings.maxBytes + 1 := by omega
  rw [readText_input, h, hmost]
  constructor
  · rintro ⟨p, hp, hlen⟩
    have htext := (Entry.text?_extract hlt).mpr ⟨hp, hlen⟩
    rw [textWithin, htext]
    simp only [hlen, Nat.lt_succ_self, if_true]
    rfl
  · intro hno
    rw [textWithin]
    cases htext : Entry.text? _ with
    | none => rfl
    | some p => exact absurd ⟨p, (Entry.text?_extract hlt).mp htext⟩ hno

/-- The text of an article that was read, unless it is nested too deep. -/
def nested (settings : Settings) (t : Text) : Except Fault Text :=
  match (Document.ofText t).checkNesting settings.maxDepth with
  | .ok () => .ok t
  | .error f => .error (.refused f)

theorem readArticle_eq (w : World) (settings : Settings) (file : String) :
    readArticle w settings file = (readText w settings file).bind (nested settings) := by
  rw [readArticle]
  cases readText w settings file with
  | error f => rfl
  | ok t =>
    change (match (Document.ofText t).checkNesting settings.maxDepth with
      | .ok () => Except.ok t
      | .error f => Except.error (Fault.refused f)) = nested settings t
    rw [nested]

theorem start_eq {shared : Shared} {session : Session} (h : Session.open w shared = .ok session)
    (file : String) : start w shared file =
      ((readText w session.settings file).bind (nested session.settings)).map (session, ·) := by
  rw [start, h, ← readArticle_eq]
  change (readArticle w session.settings file).bind (fun t => Except.ok (session, t)) = _
  cases readArticle w session.settings file <;> rfl

theorem nested_eq_ok {t' : Text} : nested settings t = .ok t' ↔
    t' = t ∧ (Document.ofText t).checkNesting settings.maxDepth = .ok () := by
  rw [nested]
  cases (Document.ofText t).checkNesting settings.maxDepth with
  | error f => simp
  | ok => simp [eq_comm]

theorem mapError_eq_ok {ε ε' α : Type} {x : Except ε α} {f : ε → ε'} {a : α} :
    x.mapError f = .ok a ↔ x = .ok a := by
  cases x with
  | error e => exact ⟨nofun, nofun⟩
  | ok b => exact ⟨fun h => congrArg Except.ok (Except.ok.inj h),
      fun h => congrArg Except.ok (Except.ok.inj h)⟩

theorem start_eq_ok {shared : Shared} {session : Session} :
    start w shared file = .ok (session, t) ↔ Session.open w shared = .ok session ∧
      readText w session.settings file = .ok t ∧
      (Document.ofText t).checkNesting session.settings.maxDepth = .ok () := by
  constructor
  · intro h
    obtain ⟨opened, hopen, h⟩ := exists_of_bind h
    obtain ⟨read, hread, h⟩ := exists_of_bind h
    cases h
    rw [readArticle_eq] at hread
    obtain ⟨whole, hwhole, hnested⟩ := exists_of_bind hread
    obtain ⟨rfl, hpass⟩ := nested_eq_ok.mp hnested
    exact ⟨mapError_eq_ok.mp hopen, hwhole, hpass⟩
  · rintro ⟨hopen, hread, hpass⟩
    rw [start_eq hopen, hread]
    change (nested session.settings t).map _ = _
    rw [nested_eq_ok.mpr ⟨rfl, hpass⟩]
    rfl

namespace Action

/-- Whether there is something to look for, where text is to be located. -/
def selects : Action → Bool
  | .locate _ target _ _ => Text.trim target.toList ≠ []
  | _ => true

/-- The same command on another article. -/
def on (file : String) : Action → Action
  | .init => .init
  | .missingAlt _ format => .missingAlt file format
  | .insertImage _ markup edit => .insertImage file markup edit
  | .insertAlt _ markup words alt edit => .insertAlt file markup words alt edit
  | .links _ format => .links file format
  | .boundary _ format => .boundary file format
  | .locate _ target before after => .locate file target before after
  | .caption _ markup => .caption file markup

theorem run_eq_error {action : Action} {shared : Shared} {f : Fault}
    (ha : action.file? = some file) (hs : action.selects = true)
    (h : start w shared file = .error f) (done : Effect) :
    action.run w shared done = .error f done := by
  cases action with
  | init => cases ha
  | locate =>
    cases ha
    simp only [selects, decide_not, Bool.not_eq_true', decide_eq_false_iff_not] at hs
    simp only [run, runLocate, requireTarget, if_neg hs, h]
    rfl
  | missingAlt | insertImage | insertAlt | links | boundary | caption =>
    cases ha
    simp only [run, runMissingAlt, runInsertImage, runInsertAlt, runLinks, runBoundary, runCaption,
      h]
    rfl

end Action

theorem perform_of_request {args : List String} {shared : Shared} {action : Action}
    (h : Request.ofArguments? args = some (.run shared (some action))) (help : Topic → Text) :
    perform help w args = action.run w shared := by
  rw [perform, h]

theorem nested_eq_error {settings : Settings} {f : Failure}
    (h : (Document.ofText t).checkNesting settings.maxDepth = .error f) :
    nested settings t = .error (.refused f) := by
  rw [nested, h]

theorem Action.file?_on {action : Action} (h : action.file? = some file) (other : String) :
    (action.on other).file? = some other := by
  cases action <;> first | rfl | cases h

theorem Action.selects_on (action : Action) (other : String) :
    (action.on other).selects = action.selects := by
  cases action <;> rfl

section

variable {w' : World} {shared : Shared} {session : Session} {action : Action}
  {args args' : List String}

theorem run_eq_error_of_readText {f : Fault} (hopen : Session.open w shared = .ok session)
    (hargs : Request.ofArguments? args = some (.run shared (some action)))
    (hf : action.file? = some file) (hs : action.selects = true)
    (h : (readText w session.settings file).bind (nested session.settings) = .error f) :
    run w args = .error f := by
  have hstart : start w shared file = .error f := by
    rw [start_eq hopen, h]
    rfl
  rw [run, perform_of_request hargs, Action.run_eq_error hf hs hstart]

/-- An article within the limit is read whole from a file and from standard input, and both pass or
fail the check of its nesting. A larger one is refused for its size in a file, and on standard input
just when the first byte behind the limit ends a character; otherwise what is left after the cut is
not UTF-8. No text has more bytes than the largest limit allows. -/
theorem run_file_and_input (hopen : Session.open w shared = .ok session)
    (hopen' : Session.open w' shared = .ok session)
    (hargs : Request.ofArguments? args = some (.run shared (some action)))
    (hargs' : Request.ofArguments? args' = some (.run shared (some (action.on standardInput))))
    (hf : action.file? = some file) (hfile : file ≠ standardInput) (hs : action.selects = true)
    (hlook : w.look file = some (.file t.toBytes)) (hinput : w'.input = t.toBytes)
    (hlarge : t.byteLength ≤ Settings.largest) :
    (t.byteLength ≤ session.settings.maxBytes →
      ((Document.ofText t).checkNesting session.settings.maxDepth = .ok () →
        start w shared file = .ok (session, t) ∧
        start w' shared standardInput = .ok (session, t)) ∧
      ∀ f, (Document.ofText t).checkNesting session.settings.maxDepth = .error f →
        run w args = .error (.refused f) ∧ run w' args' = .error (.refused f)) ∧
    (session.settings.maxBytes < t.byteLength →
      run w args =
        .error (.refused (.tooLarge file t.byteLength session.settings.maxBytes)) ∧
      ((∃ p : Text, p <+: t ∧ p.byteLength = session.settings.maxBytes + 1) →
        run w' args' = .error (.refused (.tooLarge "<stdin>" (session.settings.maxBytes + 1)
          session.settings.maxBytes))) ∧
      ((¬ ∃ p : Text, p <+: t ∧ p.byteLength = session.settings.maxBytes + 1) →
        run w' args' = .error .file)) := by
  have hread : readText w session.settings file = _ := readText_of_file hfile hlook
  have hf' := Action.file?_on hf standardInput
  have hs' := (Action.selects_on action standardInput).trans hs
  constructor
  · intro hle
    rw [if_neg (Nat.not_lt.mpr hle)] at hread
    have hread' := readText_of_input hinput hlarge hle
    refine ⟨fun hpass => ?_, fun f hdeep => ?_⟩
    · exact ⟨start_eq_ok.mpr ⟨hopen, hread, hpass⟩, start_eq_ok.mpr ⟨hopen', hread', hpass⟩⟩
    · exact ⟨run_eq_error_of_readText hopen hargs hf hs
          (by rw [hread]; exact nested_eq_error hdeep),
        run_eq_error_of_readText hopen' hargs' hf' hs'
          (by rw [hread']; exact nested_eq_error hdeep)⟩
  · intro hlt
    rw [if_pos hlt] at hread
    obtain ⟨hwhole, hcut⟩ := readText_of_large_input hinput hlarge hlt
    refine ⟨run_eq_error_of_readText hopen hargs hf hs (by rw [hread]; rfl), fun h => ?_,
      fun h => ?_⟩
    · exact run_eq_error_of_readText hopen' hargs' hf' hs' (by rw [hwhole h]; rfl)
    · exact run_eq_error_of_readText hopen' hargs' hf' hs' (by rw [hcut h]; rfl)

end

/-- A limit of one byte, and a text that lies in a file and on standard input. -/
def oneByte (t : Text) : World :=
  let files : FileTree := ⟨[(["wte.toml"], .file (Text.toBytes "max_file_size = 1".toList)),
    (["a.txt"], .file t.toBytes)]⟩
  { look := files.entry?, directory := "", input := t.toBytes, color := false }

theorem run_file_and_input_twoLetters :
    run (oneByte "ab".toList) ["boundary", "a.txt"] =
      .error (.refused (.tooLarge "a.txt" 2 1)) ∧
    run (oneByte "ab".toList) ["boundary", "-"] =
      .error (.refused (.tooLarge "<stdin>" 2 1)) := by
  let shared : Shared := ⟨none, false, false, none, [], []⟩
  have hsettings : (Session.open (oneByte "ab".toList) shared).toOption.map (·.settings) =
      some ⟨none, [], 1, 512⟩ := by decide +kernel
  obtain ⟨session, hopen, hs⟩ := Option.map_eq_some_iff.mp hsettings
  have hopen := eq_ok_of_toOption hopen
  have hargs : Request.ofArguments? ["boundary", "a.txt"] =
      some (.run shared (some (.boundary "a.txt" .text))) := by decide +kernel
  have hargs' : Request.ofArguments? ["boundary", "-"] =
      some (.run shared (some (Action.on standardInput (.boundary "a.txt" .text)))) := by
    decide +kernel
  have hrun := (run_file_and_input (t := "ab".toList) hopen hopen hargs hargs' rfl (by decide) rfl
    rfl rfl (by decide)).2
  rw [hs] at hrun
  obtain ⟨hfile, hinput, -⟩ := hrun (by decide)
  exact ⟨hfile, hinput ⟨"ab".toList, List.prefix_rfl, by decide⟩⟩

/-- The limit divides the second character: the file is refused for its size, and what is left of
standard input is no text. -/
theorem run_input_divides_character :
    run (oneByte "a\u00e9".toList) ["boundary", "a.txt"] =
      .error (.refused (.tooLarge "a.txt" 3 1)) ∧
    run (oneByte "a\u00e9".toList) ["boundary", "-"] = .error .file ∧
    ¬ ∃ path size limit, run (oneByte "a\u00e9".toList) ["boundary", "-"] =
      .error (.refused (.tooLarge path size limit)) := by
  have hinput : run (oneByte "a\u00e9".toList) ["boundary", "-"] = .error .file :=
    eq_error_of_casesOn (by decide +kernel)
  refine ⟨eq_error_of_casesOn (by decide +kernel), hinput, ?_⟩
  rintro ⟨path, size, limit, h⟩
  rw [hinput] at h
  cases h

end Command

end Wikitext
