import Wikitext.Command.Run

/-!
The program: gathers what a command may look at, runs it, and carries out its effect.
-/

namespace Wikitext

def lookAt (path : String) : IO (Option Entry) := do
  try
    return some (.file (← IO.FS.readBinFile path))
  catch _ =>
    try
      let _ ← IO.FS.realPath path
      return some .directory
    catch _ => return none

partial def readRest (stream : IO.FS.Stream) (read : ByteArray) : IO ByteArray := do
  let more ← stream.read 65536
  if more.isEmpty then return read else readRest stream (read ++ more)

def mayColor : IO Bool := do
  if (← IO.getEnv "NO_COLOR").isSome then return false
  if (← IO.getEnv "FORCE_COLOR").isSome then return true
  (← IO.getStdout).isTty

def gather (args : List String) : IO Command.World := do
  let paths := ((Command.Request.ofArguments? args).map Command.Request.paths).getD []
  let entries ← paths.mapM fun path => return (path, ← lookAt path)
  let input ← if paths.contains Command.standardInput then
      readRest (← IO.getStdin) ByteArray.empty
    else pure ByteArray.empty
  return ⟨fun path => (entries.lookup path).join, (← IO.currentDir).toString, input, ← mayColor⟩

def carryOut (effect : Command.Effect) : IO Unit := do
  IO.eprint (String.ofList effect.errors)
  if let some (path, content) := effect.write then
    IO.FS.writeBinFile path content
  IO.print (String.ofList effect.output)

/-- Stands in for what the argument reader says on a topic. -/
def usage (_ : Command.Topic) : Text :=
  ("Usage: wte [OPTIONS] [COMMAND]\n\n" ++
  "Commands:\n" ++
  "  init                  make a settings file\n" ++
  "  missing-alt <file>    list the media links without alternative text\n" ++
  "  insert-image <file>   insert the markup of an image below the leading block\n" ++
  "  insert-alt <file>     add alternative text to a media link\n" ++
  "  links <file>          list the media links\n" ++
  "  boundary <file>       print where the leading block ends\n" ++
  "  locate <file>         print where some selected text stands\n" ++
  "  caption <file>        print the caption of a media link\n").toList

def execute (args : List String) : IO UInt32 := do
  match Command.perform usage (← gather args) args .nothing with
  | .error fault done =>
    carryOut done
    IO.eprintln ("error: " ++ fault.message)
    return fault.exitCode.toUInt32
  | .ok _ done =>
    carryOut done
    return done.exitCode.toUInt32

end Wikitext

def main (args : List String) : IO UInt32 :=
  Wikitext.execute args
