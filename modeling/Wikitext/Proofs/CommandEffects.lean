import Wikitext.Proofs.ArticleReading
import Wikitext.Proofs.FileWriting
import Wikitext.Proofs.Requests

/-!
What a run of the program leaves behind. A run that fails prints nothing and changes no file, since
every command makes all its checks first; a file is changed only by `init`, where there was none,
and by an edit that is written back. What is written back is what the same edit prints.
-/

namespace Wikitext.Command

/-- Nothing was written in between, and a low exit code was not raised. -/
structure Effect.Reported (done e : Effect) : Prop where
  exitCode_le : done.exitCode ≤ 1 → e.exitCode ≤ 1
  write_eq : e.write = done.write

theorem Effect.Reported.trans {done mid e : Effect} (h : done.Reported mid)
    (h' : mid.Reported e) : done.Reported e :=
  ⟨fun hle => h'.exitCode_le (h.exitCode_le hle), h'.write_eq.trans h.write_eq⟩

namespace Act

variable {α β : Type} {x : Act α} {g : α → Act β} {P Q : Effect → Effect → Prop}

/-- An action that never fails. -/
def Does (x : Act α) (P : Effect → Effect → Prop) : Prop :=
  ∀ done, ∃ a e, x done = .ok a e ∧ P done e

/-- An action that has done nothing yet when it fails. -/
structure Ends (x : Act α) (P : Effect → Effect → Prop) : Prop where
  error : ∀ {done f e}, x done = .error f e → e = done
  ok : ∀ {done a e}, x done = .ok a e → P done e

theorem does_pure (a : α) : (pure a : Act α).Does Effect.Reported :=
  fun done => ⟨a, done, rfl, id, rfl⟩

theorem does_say (t : Text) : (say t).Does Effect.Reported :=
  fun _ => ⟨(), _, rfl, id, rfl⟩

theorem does_warn (t : Text) : (warn t).Does Effect.Reported :=
  fun _ => ⟨(), _, rfl, id, rfl⟩

theorem does_leave_one : (leave 1).Does Effect.Reported :=
  fun _ => ⟨(), _, rfl, fun _ => Nat.le_refl 1, rfl⟩

theorem bind_of_ok {done mid : Effect} {a : α} (h : x done = .ok a mid) :
    (x >>= g) done = g a mid := by
  change EStateM.bind x g done = _
  rw [EStateM.bind, h]

theorem Does.bind (hx : x.Does Effect.Reported) (hg : ∀ a, (g a).Does Effect.Reported) :
    (x >>= g).Does Effect.Reported := by
  intro done
  obtain ⟨a, mid, hrun, hmid⟩ := hx done
  obtain ⟨b, e, hrun', he⟩ := hg a mid
  exact ⟨b, e, (bind_of_ok hrun).trans hrun', hmid.trans he⟩

theorem Does.ends (h : x.Does P) : x.Ends P := by
  constructor
  · intro done f e hrun
    obtain ⟨a, e', hok, -⟩ := h done
    rw [hrun] at hok
    cases hok
  · intro done a e hrun
    obtain ⟨a', e', hok, he⟩ := h done
    rw [hrun] at hok
    cases hok
    exact he

theorem Ends.imp (h : x.Ends P) (hpq : ∀ {done e}, P done e → Q done e) : x.Ends Q :=
  ⟨h.error, fun hrun => hpq (h.ok hrun)⟩

theorem ends_throw (f : Fault) : (throw f : Act α).Ends P := by
  constructor
  · intro done f' e h
    cases h
    rfl
  · intro done a e h
    cases h

/-- Checks come first. -/
theorem ends_check_bind {r : Except Fault α} (h : ∀ a, r = .ok a → (g a).Ends P) :
    (check r >>= g).Ends P := by
  cases r with
  | error f => exact ends_throw f
  | ok a => exact h a rfl

theorem check_pure (a : α) : check (pure a) = pure a :=
  rfl

theorem check_bind (r : Except Fault α) (f : α → Except Fault β) :
    check (r >>= f) = check r >>= fun a => check (f a) := by
  cases r <;> rfl

end Act

open Act

section

variable {w : World} {shared : Shared} {file : String} {e : Effect}

theorem ends_runMissingAlt (w : World) (shared : Shared) (file : String) (format : Format) :
    (runMissingAlt w shared file format).Ends Effect.Reported := by
  refine ends_check_bind fun ⟨session, text⟩ _ => ends_check_bind fun missing _ => Does.ends ?_
  refine (does_say _).bind fun _ => ?_
  split
  · exact does_leave_one
  · exact does_pure _

theorem ends_runLinks (w : World) (shared : Shared) (file : String) (format : Format) :
    (runLinks w shared file format).Ends Effect.Reported :=
  ends_check_bind fun ⟨_, _⟩ _ => ends_check_bind fun _ _ => (does_say _).ends

theorem ends_runBoundary (w : World) (shared : Shared) (file : String) (format : Format) :
    (runBoundary w shared file format).Ends Effect.Reported :=
  ends_check_bind fun ⟨_, _⟩ _ => (does_say _).ends

theorem ends_runLocate (w : World) (shared : Shared) (file : String) (s : Selection) :
    (runLocate w shared file s).Ends Effect.Reported := by
  refine ends_check_bind fun _ _ => ends_check_bind fun ⟨session, text⟩ _ => Does.ends ?_
  dsimp only
  split
  · exact (does_say _).bind fun _ => does_say _
  · exact (does_warn _).bind fun _ => does_leave_one

theorem ends_runCaption (w : World) (shared : Shared) (file markup : String) :
    (runCaption w shared file markup).Ends Effect.Reported := by
  refine ends_check_bind fun ⟨session, text⟩ _ => ends_check_bind fun _ _ =>
    ends_check_bind fun links _ => ?_
  split
  · exact ends_throw _
  · split
    · exact (does_say _).ends
    · exact (does_warn _).ends

theorem ends_runInit (w : World) (shared : Shared) : (runInit w shared).Ends fun done e =>
    done.Reported e ∨ e.exitCode = done.exitCode ∧
      w.look (Settings.pathIn shared.path "wte.toml") = none ∧
      e.write = some (Settings.pathIn shared.path "wte.toml", sampleSettings.toBytes) := by
  simp only [runInit]
  split
  · exact (does_say _).ends.imp .inl
  · rename_i hlook _
    exact Does.ends fun done => ⟨(), _, rfl, .inr ⟨rfl, hlook, rfl⟩⟩
  · exact ends_throw _

/-- What an edit says of itself, the text it found and the text it made of it. -/
structure Edited where
  notes : Text
  old : Text
  new : Text

/-- The edit that a command makes, before it is asked whether to print it or to write it back. -/
def edited (w : World) (shared : Shared) : Action → Except Fault Edited
  | .insertImage file markup _ => do
    let (_, text) ← start w shared file
    return ⟨[], text, insertImage markup.toList text⟩
  | .insertAlt file markup words alt _ => do
    let (_, text) ← start w shared file
    requireMarkup markup text
    let updated := insertAlt alt.toList words.toList markup.toList text
    let notes := if updated = text then
        Color.yellow.paint (colored w shared) "warning:".toList ++ line (" caption `" ++ words ++
          "` not found in the image markup, nothing to change").toList
      else []
    return ⟨notes, text, updated⟩
  | _ => throw .usage

def Edited.finish (w : World) (shared : Shared) (file : String) (edit : EditOptions)
    (x : Edited) : Act Unit := do
  warn x.notes
  finishEdit w shared file edit x.old x.new

theorem warn_nil : warn [] = pure () := by
  funext done
  change EStateM.Result.ok () { done with errors := done.errors ++ [] } = _
  rw [List.append_nil]
  rfl

theorem run_eq_finish {action : Action} {edit : EditOptions} (he : action.edit? = some edit)
    (hf : action.file? = some file) :
    action.run w shared = check (edited w shared action) >>= Edited.finish w shared file edit := by
  cases action with
  | insertImage =>
    cases he
    cases hf
    simp only [Action.run, runInsertImage, edited, check_bind, check_pure, bind_assoc, pure_bind,
      Edited.finish, warn_nil]
  | insertAlt _ markup words alt =>
    cases he
    cases hf
    simp only [Action.run, runInsertAlt, edited, check_bind, check_pure, bind_assoc, pure_bind,
      Edited.finish]
    refine bind_congr fun x => bind_congr fun _ => ?_
    split
    · rfl
    · rw [warn_nil, pure_bind]
  | _ => cases he

theorem edited_printed (w : World) (shared : Shared) (action : Action) :
    edited w shared action.printed = edited w shared action := by
  cases action <;> rfl

theorem start_of_edited {action : Action} {x : Edited} (hf : action.file? = some file)
    (h : edited w shared action = .ok x) :
    ∃ session, start w shared file = .ok (session, x.old) := by
  cases action with
  | insertImage =>
    cases hf
    obtain ⟨⟨session, text⟩, hstart, hx⟩ := exists_of_bind h
    cases hx
    exact ⟨session, hstart⟩
  | insertAlt =>
    cases hf
    obtain ⟨⟨session, text⟩, hstart, hx⟩ := exists_of_bind h
    obtain ⟨_, -, hx⟩ := exists_of_bind hx
    cases hx
    exact ⟨session, hstart⟩
  | _ => cases h

theorem edit?_printed {action : Action} {edit : EditOptions} (he : action.edit? = some edit) :
    action.printed.edit? = some { edit with write := false } := by
  cases action with
  | insertImage | insertAlt =>
    cases he
    rfl
  | _ => cases he

theorem file?_printed (action : Action) : action.printed.file? = action.file? := by
  cases action <;> rfl

theorem does_finish_print (w : World) (shared : Shared) (file : String) (edit : EditOptions)
    (h : edit.write = false ∨ file = standardInput) (x : Edited) :
    (x.finish w shared file edit).Does fun done e =>
      e.exitCode = done.exitCode ∧ e.output = done.output ++ x.new ∧ e.write = done.write := by
  have hprint : (!edit.write || file = standardInput) = true := by
    rcases h with h | h <;> simp [h]
  intro done
  simp only [Edited.finish, finishEdit, if_pos hprint]
  cases edit.diff <;> exact ⟨(), _, rfl, rfl, rfl, rfl⟩

theorem does_finish_write (w : World) (shared : Shared) {file : String} {edit : EditOptions}
    (hw : edit.write = true) (hfile : file ≠ standardInput) (x : Edited) :
    (x.finish w shared file edit).Does fun done e => e.exitCode = done.exitCode ∧
      e.write = if x.old = x.new then done.write else some (file, x.new.toBytes) := by
  have hback : ¬ (!edit.write || file = standardInput) = true := by
    simp [hw, hfile]
  intro done
  simp only [Edited.finish, finishEdit, if_neg hback]
  by_cases hsame : x.old = x.new
  · simp only [if_pos hsame]
    cases edit.diff <;> exact ⟨(), _, rfl, rfl, rfl⟩
  · simp only [if_neg hsame]
    cases edit.diff <;> exact ⟨(), _, rfl, rfl, rfl⟩

theorem look_of_edited {action : Action} {x : Edited} (hf : action.file? = some file)
    (hfile : file ≠ standardInput) (h : edited w shared action = .ok x) :
    w.look file = some (.file x.old.toBytes) := by
  obtain ⟨session, hstart⟩ := start_of_edited hf h
  exact look_of_readText hfile (start_eq_ok.mp hstart).2.1

/-- The files that a command may write: the settings where nothing lies, and an edited article. -/
inductive Action.Writes (w : World) (shared : Shared) : Action → String → ByteArray → Prop
  | init (absent : w.look (Settings.pathIn shared.path "wte.toml") = none) :
    Writes w shared .init (Settings.pathIn shared.path "wte.toml") sampleSettings.toBytes
  | edit {action : Action} {edit : EditOptions} {file : String} {old content : ByteArray}
    (edits : action.edit? = some edit) (write : edit.write = true)
    (article : action.file? = some file) (named : file ≠ standardInput)
    (was : w.look file = some (.file old)) : Writes w shared action file content

theorem ends_run (w : World) (shared : Shared) (action : Action) :
    (action.run w shared).Ends fun done e => done.Reported e ∨ e.exitCode = done.exitCode ∧
      ∃ path content, e.write = some (path, content) ∧ action.Writes w shared path content := by
  cases he : action.edit? with
  | some edit =>
    obtain ⟨file, hf⟩ : ∃ file, action.file? = some file := by
      cases action <;> first | exact ⟨_, rfl⟩ | cases he
    rw [run_eq_finish he hf]
    refine ends_check_bind fun x hx => ?_
    by_cases hprint : edit.write = false ∨ file = standardInput
    · refine (does_finish_print w shared file edit hprint x).ends.imp fun ⟨hcode, _, hwrite⟩ => ?_
      exact .inl ⟨fun hle => hcode ▸ hle, hwrite⟩
    · rw [not_or, Bool.not_eq_false] at hprint
      refine (does_finish_write w shared hprint.1 hprint.2 x).ends.imp fun ⟨hcode, hwrite⟩ => ?_
      split at hwrite
      · exact .inl ⟨fun hle => hcode ▸ hle, hwrite⟩
      · exact .inr ⟨hcode, _, _, hwrite,
          .edit he hprint.1 hf hprint.2 (look_of_edited hf hprint.2 hx)⟩
  | none =>
    cases action with
    | init =>
      exact (ends_runInit w shared).imp (Or.imp_right fun ⟨hcode, habsent, hwrite⟩ =>
        ⟨hcode, _, _, hwrite, .init habsent⟩)
    | missingAlt => exact (ends_runMissingAlt ..).imp .inl
    | links => exact (ends_runLinks ..).imp .inl
    | boundary => exact (ends_runBoundary ..).imp .inl
    | locate => exact (ends_runLocate ..).imp .inl
    | caption => exact (ends_runCaption ..).imp .inl
    | insertImage | insertAlt => cases he

theorem ends_perform (help : Topic → Text) (w : World) (args : List String) :
    (perform help w args).Ends fun done e => done.Reported e ∨ e.exitCode = done.exitCode ∧
      ∃ shared action path content,
        Request.ofArguments? args = some (.run shared (some action)) ∧
        e.write = some (path, content) ∧ action.Writes w shared path content := by
  rw [perform]
  split
  · exact ends_throw _
  · exact (does_say _).ends.imp .inl
  · exact (does_say _).ends.imp .inl
  · exact ((does_warn _).bind fun _ => does_leave_one).ends.imp .inl
  · rename_i shared action hrequest
    refine (ends_run w shared action).imp fun hdone => ?_
    rcases hdone with hreported | ⟨hcode, path, content, hwrite⟩
    · exact .inl hreported
    · exact .inr ⟨hcode, shared, action, path, content, hrequest, hwrite⟩

end

/-- The files, and what else a run depends on. -/
structure Scene where
  files : FileTree
  directory : String
  input : ByteArray
  color : Bool
  help : Topic → Text

/-- What a run leaves: its exit code, what it printed, and the files. -/
structure Aftermath where
  exitCode : Nat
  output : Text
  files : FileTree

namespace Scene

def world (s : Scene) : World :=
  { look := s.files.entry?, directory := s.directory, input := s.input, color := s.color }

def afterEffect (s : Scene) (e : Effect) : FileTree :=
  match e.write with
  | some (path, content) => s.files.write path content
  | none => s.files

def after (s : Scene) (args : List String) : Aftermath :=
  match perform s.help s.world args .nothing with
  | .error f e => ⟨f.exitCode, e.output, s.afterEffect e⟩
  | .ok _ e => ⟨e.exitCode, e.output, s.afterEffect e⟩

variable {s : Scene} {args : List String}

theorem afterEffect_of_unwritten {e : Effect} (h : e.write = none) :
    s.afterEffect e = s.files := by
  rw [afterEffect, h]

/-- All checks are made before anything is printed or written. -/
theorem after_of_error {f : Fault} {e : Effect}
    (h : perform s.help s.world args .nothing = .error f e) :
    s.after args = ⟨f.exitCode, [], s.files⟩ := by
  rw [after, h, (ends_perform s.help s.world args).error h]
  rfl

theorem after_of_ok {e : Effect} (h : perform s.help s.world args .nothing = .ok () e) :
    s.after args = ⟨e.exitCode, e.output, s.afterEffect e⟩ := by
  rw [after, h]

theorem exitCode_le_of_ok {e : Effect} (h : perform s.help s.world args .nothing = .ok () e) :
    e.exitCode ≤ 1 := by
  rcases (ends_perform s.help s.world args).ok h with hreported | ⟨hcode, -⟩
  · exact hreported.exitCode_le (Nat.zero_le 1)
  · exact hcode ▸ Nat.zero_le 1

theorem after_failed (h : (s.after args).exitCode = 2) :
    (s.after args).output = [] ∧ (s.after args).files = s.files := by
  cases hrun : perform s.help s.world args .nothing with
  | error f e =>
    rw [after_of_error hrun]
    exact ⟨rfl, rfl⟩
  | ok _ e =>
    have hle := exitCode_le_of_ok hrun
    rw [after_of_ok hrun] at h
    dsimp only at h
    omega

/-- What may have changed after a run: with `init`, the settings file that was not there; with an
edit that is written back, the article. -/
inductive Changed (s : Scene) (args : List String) (files : FileTree) : Prop
  | init {shared : Shared}
      (request : Request.ofArguments? args = some (.run shared (some .init)))
      (absent : s.files.entry? (Settings.pathIn shared.path "wte.toml") = none)
      (written : FileTree.Written (Settings.pathIn shared.path "wte.toml") sampleSettings.toBytes
        s.files files)
  | edit {shared : Shared} {action : Action} {edit : EditOptions} {file : String}
      {content : ByteArray}
      (request : Request.ofArguments? args = some (.run shared (some action)))
      (edits : action.edit? = some edit) (write : edit.write = true)
      (article : action.file? = some file) (named : file ≠ standardInput)
      (written : FileTree.Written file content s.files files)

theorem unchanged_or_changed (s : Scene) (args : List String) :
    (s.after args).files = s.files ∨ Changed s args (s.after args).files := by
  cases hrun : perform s.help s.world args .nothing with
  | error f e => exact .inl (by rw [after_of_error hrun])
  | ok _ e =>
    rw [after_of_ok hrun]
    rcases (ends_perform s.help s.world args).ok hrun with hreported |
      ⟨-, shared, action, path, content, hrequest, hw, hwrites⟩
    · exact .inl (afterEffect_of_unwritten hreported.write_eq)
    · rw [afterEffect, hw]
      cases hwrites with
      | init habsent =>
        exact (FileTree.written_write_of_absent habsent).imp_right (.init hrequest habsent)
      | edit he hwrite hf hfile hlook =>
        exact .inr (.edit hrequest he hwrite hf hfile (FileTree.written_write_of_file hlook))

/-- Two runs of one edit, the first written back and the second printed. -/
structure Agree (s : Scene) (file : String) (written printed : Aftermath) : Prop where
  exitCode_eq : printed.exitCode = written.exitCode
  unchanged : printed.files = s.files
  article : written.exitCode = 0 →
    written.files.entry? file = some (.file printed.output.toBytes) ∧
    (s.files.entry? file = some (.file printed.output.toBytes) → written.files = s.files) ∧
    (s.files.entry? file ≠ some (.file printed.output.toBytes) →
      FileTree.Written file printed.output.toBytes s.files written.files)

theorem agree_of_requests {args' : List String} {shared : Shared} {action : Action}
    {edit : EditOptions} {file : String}
    (h : Request.ofArguments? args = some (.run shared (some action)))
    (h' : Request.ofArguments? args' = some (.run shared (some action.printed)))
    (he : action.edit? = some edit) (hw : edit.write = true) (hf : action.file? = some file)
    (hfile : file ≠ standardInput) : Agree s file (s.after args) (s.after args') := by
  have hrun := (perform_of_request (w := s.world) h s.help).trans (run_eq_finish he hf)
  have hrun' := (perform_of_request (w := s.world) h' s.help).trans
    (run_eq_finish (edit?_printed he) ((file?_printed action).trans hf))
  rw [edited_printed] at hrun'
  cases hx : edited s.world shared action with
  | error f =>
    rw [hx] at hrun hrun'
    rw [after_of_error (congrFun hrun _), after_of_error (congrFun hrun' _)]
    refine ⟨rfl, rfl, fun hzero => ?_⟩
    cases f <;> cases hzero
  | ok x =>
    rw [hx] at hrun hrun'
    obtain ⟨_, e, hback, hcode, hwrite⟩ := does_finish_write s.world shared hw hfile x .nothing
    obtain ⟨_, e', hprint, hcode', hnew, hnone⟩ := does_finish_print s.world shared file
      { edit with write := false } (.inl rfl) x .nothing
    have hlook : s.files.entry? file = some (.file x.old.toBytes) := look_of_edited hf hfile hx
    rw [after_of_ok ((congrFun hrun _).trans hback), after_of_ok ((congrFun hrun' _).trans hprint),
      afterEffect_of_unwritten hnone, hnew]
    refine ⟨hcode'.trans hcode.symm, rfl, fun _ => ?_⟩
    by_cases hsame : x.old = x.new
    · rw [if_pos hsame] at hwrite
      rw [afterEffect_of_unwritten hwrite, ← hsame]
      exact ⟨hlook, fun _ => rfl, fun hne => absurd hlook hne⟩
    · rw [if_neg hsame] at hwrite
      have hwritten : FileTree.Written file x.new.toBytes s.files (s.afterEffect e) := by
        rw [afterEffect, hwrite]
        exact FileTree.written_write_of_file hlook
      refine ⟨(hwritten.entry?_eq file).trans (if_pos rfl), fun hnew => ?_, fun _ => hwritten⟩
      change s.files.entry? file = some (.file x.new.toBytes) at hnew
      rw [hlook, Option.some.injEq, Entry.file.injEq] at hnew
      exact absurd (Entry.toBytes_inj hnew) hsame

/-- A run that fails changes nothing and prints nothing. Of the files only a settings file that is
made and an article that is written back may change; what is written back is what the same command
prints without `--write`. -/
theorem leaves_as_printed (s : Scene) (args : List String) :
    ((s.after args).exitCode = 2 → (s.after args).output = [] ∧ (s.after args).files = s.files) ∧
    ((s.after args).files = s.files ∨ Changed s args (s.after args).files) ∧
    ∀ shared action edit file,
      Request.ofArguments? args = some (.run shared (some action)) → action.edit? = some edit →
      edit.write = true → action.file? = some file → file ≠ standardInput →
      Request.ofArguments? (args.erase "--write") = some (.run shared (some action.printed)) ∧
        Agree s file (s.after args) (s.after (args.erase "--write")) := by
  refine ⟨after_failed, unchanged_or_changed s args, ?_⟩
  intro shared action edit file hrequest he hw hf hfile
  have hprinted := Request.ofArguments?_erase_write hrequest he hw
  exact ⟨hprinted, agree_of_requests hrequest hprinted he hw hf hfile⟩

def catScene : Scene :=
  ⟨⟨[(["cat.txt"], .file (Text.toBytes "Cat.".toList)), (["dog.txt"], .directory)]⟩, "",
    ByteArray.empty, false, fun _ => []⟩

theorem leaves_as_printed_catScene :
    let s := catScene.after ["insert-image", "cat.txt", "--markup", "[[File:A]]", "--write"]
    s.exitCode = 0 ∧ s.output = "Updated cat.txt\n".toList ∧
      s.files.entry? "cat.txt" = some (.file (Text.toBytes "[[File:A]]\nCat.".toList)) ∧
      s.files.entry? "dog.txt" = some .directory := by
  intro s
  have hagree := ((leaves_as_printed catScene
    ["insert-image", "cat.txt", "--markup", "[[File:A]]", "--write"]).2.2
      ⟨none, false, false, none, [], []⟩ (.insertImage "cat.txt" "[[File:A]]" ⟨true, false⟩) _ _
      (by decide +kernel) rfl rfl rfl (by decide)).2
  have hzero : s.exitCode = 0 := by decide +kernel
  obtain ⟨harticle, -, hother⟩ := hagree.article hzero
  have hprinted : (catScene.after (["insert-image", "cat.txt", "--markup", "[[File:A]]",
      "--write"].erase "--write")).output = "[[File:A]]\nCat.".toList := by decide +kernel
  rw [hprinted] at harticle hother
  refine ⟨hzero, by decide +kernel, harticle, ?_⟩
  have hnew : catScene.files.entry? "cat.txt" ≠
      some (.file (Text.toBytes "[[File:A]]\nCat.".toList)) := by
    have hold : catScene.files.entry? "cat.txt" = some (.file (Text.toBytes "Cat.".toList)) := rfl
    rw [hold, ne_eq, Option.some.injEq, Entry.file.injEq]
    exact fun h => absurd (Entry.toBytes_inj h) (by decide)
  rw [(hother hnew).entry?_eq, if_neg (by decide +kernel)]
  rfl

end Scene

end Wikitext.Command
