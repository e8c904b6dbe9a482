import Wikitext.FileTree
import Wikitext.Link.Media
import Wikitext.Settings

/-!
What a command sees of the world, and what it does to it. A command is a run of checks and of steps
that print or write; what was done before a fault stays done.
-/

namespace Wikitext

namespace Entry

def size : Entry → Nat
  | file content => content.size
  | directory => 4096

def text? : Entry → Option Text
  | file content => (String.fromUTF8? content).map String.toList
  | directory => none

end Entry

namespace Text

def toBytes (t : Text) : ByteArray :=
  (String.ofList t).toUTF8

end Text

namespace Settings

def candidates : List String :=
  ["wte.toml", ".wte.toml", ".config/wte.toml"]

def pathIn (root : Option String) (name : String) : String :=
  match root with
  | some directory => FileTree.join directory name
  | none => name

def path? (look : String → Option Entry) (root : Option String) : Option String :=
  (candidates.map (pathIn root)).find? fun path =>
    match look path with
    | some (.file _) => true
    | _ => false

def load (look : String → Option Entry) (root : Option String) :
    Except Failure (Option Settings) :=
  match path? look root with
  | none => .ok none
  | some path =>
    match (look path).bind Entry.text? with
    | none => .error (.unreadableSettings "stream did not contain valid UTF-8")
    | some text => (parse text).map some

end Settings

namespace Command

structure World where
  look : String → Option Entry
  directory : String
  input : ByteArray
  color : Bool

inductive Fault where
  | usage
  /-- A file cannot be read or written, or is not UTF-8. -/
  | file
  | refused (f : Failure)
  | overrun (o : AliasOverrun)
  deriving DecidableEq, Repr

namespace Fault

def exitCode : Fault → Nat
  | overrun _ => 101
  | _ => 2

def message : Fault → String
  | usage => "the arguments are not understood"
  | file => "a file cannot be read or written"
  | refused f =>
    match f.help? with
    | some hint => f.message ++ "\n  help: " ++ hint
    | none => f.message
  | overrun o =>
    "the namespace alias `" ++ String.ofList o.aliasUsed ++ "` hides the end of a title"

end Fault

/-- What a run has done so far. -/
structure Effect where
  exitCode : Nat
  output : Text
  errors : Text
  write : Option (String × ByteArray)

namespace Effect

def print (output : Text) : Effect :=
  ⟨0, output, [], none⟩

def nothing : Effect :=
  print []

end Effect

/-- A run of a command, which keeps what it has done when it fails. -/
abbrev Act := EStateM Fault Effect

namespace Act

def check {α : Type} : Except Fault α → Act α
  | .ok a => pure a
  | .error f => throw f

def say (t : Text) : Act Unit :=
  modify fun e => { e with output := e.output ++ t }

def warn (t : Text) : Act Unit :=
  modify fun e => { e with errors := e.errors ++ t }

def save (path : String) (content : ByteArray) : Act Unit :=
  modify fun e => { e with write := some (path, content) }

def leave (exitCode : Nat) : Act Unit :=
  modify fun e => { e with exitCode := exitCode }

end Act

end Command

end Wikitext
