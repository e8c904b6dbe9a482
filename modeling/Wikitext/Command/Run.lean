import Wikitext.AltInsertion
import Wikitext.Command.Arguments
import Wikitext.Command.Style
import Wikitext.Command.World
import Wikitext.ImageInsertion
import Wikitext.Json
import Wikitext.Marker.Nesting
import Wikitext.Selection.Locate

/-!
The commands. Each loads the settings, reads its article within the limits, and either prints what
it finds or edits the article. An edit is printed, or written back when that is asked for.
-/

namespace Wikitext.Command

open Act

structure Session where
  settings : Settings
  locale : String
  table : NameTable

def fallbackLocale : String := "en"

/-- The name table of a language before the arguments add to it. English has one of its own, and a
language without any may be described by arguments alone. -/
def baseTable (settings : Settings) (locale : String) (namespaces : List String) :
    Except Failure NameTable :=
  match settings.table locale with
  | .ok t => .ok t
  | .error f =>
    if locale = fallbackLocale then .ok .english
    else if namespaces ≠ [] then .ok .empty
    else .error f

def Session.open (w : World) (shared : Shared) : Except Failure Session := do
  let settings := (← Settings.load w.look shared.path).getD .default
  let locale := (shared.locale <|> settings.defaultLocale).getD fallbackLocale
  let table ← baseTable settings locale shared.namespaces
  let more : NameTable :=
    ⟨shared.namespaces.map String.toList, shared.altParams.map String.toList, []⟩
  return ⟨settings, locale, table.extend more⟩

def standardInput : String := "-"

def displayName (file : String) : String :=
  if file = standardInput then "<stdin>" else file

def checkSize (settings : Settings) (file : String) (size : Nat) : Except Fault Unit :=
  if settings.maxBytes < size then
    .error (.refused (.tooLarge (displayName file) size settings.maxBytes))
  else .ok ()

/-- The text of an article. Of standard input no more is read than shows that it is too large. -/
def readText (w : World) (settings : Settings) (file : String) : Except Fault Text := do
  let entry ←
    if file = standardInput then
      let most := min (settings.maxBytes + 1) Settings.largest
      pure (Entry.file (w.input.extract 0 most))
    else
      match w.look file with
      | none => throw .file
      | some entry =>
        checkSize settings file entry.size
        pure entry
  match entry.text? with
  | none => throw .file
  | some text =>
    checkSize settings file text.byteLength
    return text

def readArticle (w : World) (settings : Settings) (file : String) : Except Fault Text := do
  let text ← readText w settings file
  match (Document.ofText text).checkNesting settings.maxDepth with
  | .ok () => return text
  | .error f => throw (.refused f)

def start (w : World) (shared : Shared) (file : String) : Except Fault (Session × Text) := do
  let session ← (Session.open w shared).mapError .refused
  return (session, ← readArticle w session.settings file)

def colored (w : World) (shared : Shared) : Bool :=
  w.color && !shared.noColor

def line (t : Text) : Text :=
  t ++ ['\n']

def number (n : Nat) : Text :=
  (toString n).toList

def sampleSettings : Text :=
  ("# wte configuration\n\n" ++
  "# Locale used when `--locale` is not given.\n" ++
  "default_locale = \"en\"\n\n" ++
  "# Inputs larger than this many bytes are rejected.\n" ++
  "# max_file_size = 10485760\n\n" ++
  "[locales.en]\n" ++
  "namespaces = [\"File\", \"Image\"]\n" ++
  "alt_params = [\"alt\"]\n" ++
  "magic_words = [\"thumb\", \"thumbnail\", \"frameless\", \"left\", \"right\", \"center\", " ++
  "\"none\", \"upright\"]\n\n" ++
  "[locales.de]\n" ++
  "namespaces = [\"Datei\", \"Bild\", \"File\", \"Image\"]\n" ++
  "alt_params = [\"alternativtext\", \"alt\"]\n" ++
  "magic_words = [\"mini\", \"miniatur\", \"links\", \"rechts\", \"zentriert\", \"ohne\", " ++
  "\"hochkant\"]\n\n" ++
  "[locales.ar]\n" ++
  "namespaces = [\"ملف\", \"صورة\", \"File\", \"Image\"]\n" ++
  "alt_params = [\"بديل\", \"alt\"]\n" ++
  "magic_words = [\"تصغير\", \"يمين\", \"يسار\", \"مركز\"]\n").toList

def runInit (w : World) (shared : Shared) : Act Unit := do
  let path := Settings.pathIn shared.path "wte.toml"
  let shown := FileTree.join (shared.path.getD w.directory) "wte.toml"
  match w.look path, w.look (shared.path.getD ".") with
  | some _, _ => say (line ("Config file already exists: " ++ shown).toList)
  | none, some .directory =>
    save path sampleSettings.toBytes
    say ("Created " ++ shown ++ "\n\nNext steps:\n" ++
      "  1. Add a [locales.<code>] table for each wiki language you edit\n" ++
      "  2. Run `wte missing-alt <file>` to find images without alt text\n").toList
  | none, _ => throw .file

def missingJson (locale : String) (missing : List MissingAlt) : Json :=
  .object [("locale", .text locale.toList),
    ("missing", .array (missing.map fun m => .object [("file", .text m.file),
      ("length", .nat m.span.length), ("offset", .nat m.span.offset), ("text", .text m.text)])),
    ("ok", .bool missing.isEmpty)]

def missingText (color : Bool) (missing : List MissingAlt) : Text :=
  if missing.isEmpty then
    line (Color.green.paint color "All media links have alt text.".toList)
  else
    line (Color.yellow.paint color
      (number missing.length ++ " media link(s) without alt text:".toList)) ++
    missing.flatMap fun m =>
      "\n  ".toList ++ Color.bold.paint color m.file ++ " (offset ".toList ++
        number m.span.offset ++ ")\n    ".toList ++ line m.text

def runMissingAlt (w : World) (shared : Shared) (file : String) (format : Format) :
    Act Unit := do
  let (session, text) ← check (start w shared file)
  let missing ← check ((session.table.missingAlt (.ofText text)).mapError .overrun)
  say <| match format with
    | .json => line (missingJson session.locale missing).print
    | .text => missingText (colored w shared) missing
  if !missing.isEmpty then leave 1

def finishEdit (w : World) (shared : Shared) (file : String) (edit : EditOptions)
    (old new : Text) : Act Unit := do
  if edit.diff then warn (diffText (colored w shared) old new)
  if !edit.write || file = standardInput then say new
  else if old = new then say (line ("No changes to " ++ file).toList)
  else
    save file new.toBytes
    say (Color.green.paint (colored w shared) "Updated".toList ++ line (" " ++ file).toList)

def runInsertImage (w : World) (shared : Shared) (file markup : String) (edit : EditOptions) :
    Act Unit := do
  let (_, text) ← check (start w shared file)
  finishEdit w shared file edit text (insertImage markup.toList text)

def requireMarkup (markup : String) (text : Text) : Except Fault Unit :=
  if markup = "" || !text.hasFactor markup.toList then
    .error (.refused (.markupNotFound markup))
  else .ok ()

def runInsertAlt (w : World) (shared : Shared) (file markup caption alt : String)
    (edit : EditOptions) : Act Unit := do
  let (_, text) ← check (start w shared file)
  check (requireMarkup markup text)
  let updated := insertAlt alt.toList caption.toList markup.toList text
  if updated = text then
    warn (Color.yellow.paint (colored w shared) "warning:".toList ++
      line (" caption `" ++ caption ++ "` not found in the image markup, nothing to change").toList)
  finishEdit w shared file edit text updated

def linkJson (table : NameTable) (l : MediaLink) : Json :=
  .object [("file", .text l.file), ("namespace_alias", .text l.aliasUsed),
    ("title", .text l.title), ("params", .array (l.params.map .text)),
    ("span", .object [("offset", .nat l.span.offset), ("length", .nat l.span.length)]),
    ("caption", match table.caption? l with | some c => .text c | none => .null)]

def paramLines (index : Nat) : List Text → Text
  | [] => []
  | p :: ps =>
    "  ".toList ++ number index ++ ": ".toList ++ line p ++ paramLines (index + 1) ps

def linkText (color : Bool) (l : MediaLink) : Text :=
  Color.bold.paint color l.file ++ " (offset ".toList ++ number l.span.offset ++
    ", length ".toList ++ number l.span.length ++ ")\n".toList ++ paramLines 0 l.params

def runLinks (w : World) (shared : Shared) (file : String) (format : Format) : Act Unit := do
  let (session, text) ← check (start w shared file)
  let links ← check ((session.table.mediaLinks (.ofText text)).mapError .overrun)
  say <| match format with
    | .json => line (Json.array (links.map (linkJson session.table))).print
    | .text =>
      if links.isEmpty then line "No media links found.".toList
      else links.flatMap (linkText (colored w shared))

def runBoundary (w : World) (shared : Shared) (file : String) (format : Format) : Act Unit := do
  let (_, text) ← check (start w shared file)
  let d := Document.ofText text
  say <| match format with
    | .json => line (Json.object [("offset", .nat d.leadingEnd), ("templates", .array
        (d.leadingSpans.map fun s => .object [("start", .nat s.1), ("end", .nat s.2)]))]).print
    | .text =>
      line (number d.leadingEnd) ++
        if shared.verbose then
          d.leadingSpans.flatMap fun s =>
            "  ".toList ++ number s.1 ++ "..".toList ++ line (number s.2)
        else []

def requireTarget (s : Selection) : Except Fault Unit :=
  if s.target.trim = [] then .error (.refused .emptySelection) else .ok ()

def runLocate (w : World) (shared : Shared) (file : String) (s : Selection) : Act Unit := do
  check (requireTarget s)
  let (_, text) ← check (start w shared file)
  let d := Document.ofText text
  match s.locate? d with
  | some span =>
    say (number span.offset ++ ' ' :: line (number span.length))
    say (line (d.slice span))
  | none =>
    warn (Color.yellow.paint (colored w shared) "warning:".toList ++ " `".toList ++
      s.target ++ "` was not found in ".toList ++ line (displayName file).toList)
    leave 1

def runCaption (w : World) (shared : Shared) (file markup : String) : Act Unit := do
  let (session, text) ← check (start w shared file)
  check (requireMarkup markup text)
  let links ← check ((session.table.mediaLinks (.ofText markup.toList)).mapError .overrun)
  match links.head? with
  | none => throw (.refused (.markupNotFound markup))
  | some l =>
    match session.table.caption? l with
    | some caption => say (line caption)
    | none =>
      warn (Color.yellow.paint (colored w shared) "note:".toList ++ ' ' :: l.file ++
        line " has no caption".toList)

def Action.run (w : World) (shared : Shared) : Action → Act Unit
  | .init => runInit w shared
  | .missingAlt file format => runMissingAlt w shared file format
  | .insertImage file markup edit => runInsertImage w shared file markup edit
  | .insertAlt file markup words alt edit => runInsertAlt w shared file markup words alt edit
  | .links file format => runLinks w shared file format
  | .boundary file format => runBoundary w shared file format
  | .locate file target before after =>
    runLocate w shared file ⟨before.toList, target.toList, after.toList⟩
  | .caption file markup => runCaption w shared file markup

def Action.file? : Action → Option String
  | .init => none
  | .missingAlt file _ | .insertImage file _ _ | .insertAlt file _ _ _ _ | .links file _
  | .boundary file _ | .locate file _ _ _ | .caption file _ => some file

def Request.paths : Request → List String
  | .run shared (some action) =>
    shared.path.getD "." :: Settings.candidates.map (Settings.pathIn shared.path) ++
      action.file?.toList
  | _ => []

/-- `help` is the argument reader's text on a topic. -/
def perform (help : Topic → Text) (w : World) (args : List String) : Act Unit :=
  match Request.ofArguments? args with
  | none => throw .usage
  | some .version => say (line "wte_cli 0.1.0".toList)
  | some (.help topic) => say (help topic)
  | some (.run _ none) => do
    warn (line "No subcommand specified. Run `wte --help` for usage.".toList)
    leave 1
  | some (.run shared (some action)) => action.run w shared

/-- What a run comes to: all that it has done, or the fault that ended it. The text for help is left
out. -/
def run (w : World) (args : List String) : Except Fault Effect :=
  match perform (fun _ => []) w args .nothing with
  | .ok _ e => .ok e
  | .error f _ => .error f

end Wikitext.Command
