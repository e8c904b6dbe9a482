import Wikitext.Text

/-!
Files and directories below a working directory. A path is followed part by part, each from a
directory; a directory exists as soon as something lies in it.
-/

namespace Wikitext

inductive Entry where
  | file (content : ByteArray)
  | directory

def Entry.isDirectory : Entry → Bool
  | file _ => false
  | directory => true

def Entry.holds (content : ByteArray) : Entry → Bool
  | file other => other.data = content.data
  | directory => false

/-- Entries by the names on the way to them. -/
structure FileTree where
  entries : List (List String × Entry)

namespace FileTree

def parts (path : String) : List String :=
  (Text.splitOn path.toList '/').map String.ofList

def join (directory name : String) : String :=
  if directory.toList.getLast? = some '/' then directory ++ name else directory ++ "/" ++ name

def isDirectory (t : FileTree) (names : List String) : Bool :=
  names = [] || t.entries.any fun (other, entry) =>
    if other = names then entry.isDirectory else names.isPrefixOf other

def follow? (t : FileTree) (names : List String) (part : String) : Option (List String) :=
  if !t.isDirectory names then none
  else if part = "" || part = "." then some names
  else if part = ".." then if names = [] then none else some names.dropLast
  else some (names ++ [part])

/-- The names that a path stands for. A path that leaves the working directory stands for none. -/
def resolve? (t : FileTree) (path : String) : Option (List String) :=
  if path = "" || path.toList.head? = some '/' then none
  else (parts path).foldlM t.follow? []

def entry? (t : FileTree) (path : String) : Option Entry :=
  match t.resolve? path with
  | none => none
  | some names => if t.isDirectory names then some .directory else t.entries.lookup names

def put (t : FileTree) (names : List String) (content : ByteArray) : FileTree :=
  if (t.entries.lookup names).isSome then
    ⟨t.entries.map fun e => if e.1 = names then (names, .file content) else e⟩
  else ⟨t.entries ++ [(names, .file content)]⟩

def write (t : FileTree) (path : String) (content : ByteArray) : FileTree :=
  match t.resolve? path with
  | none => t
  | some names => t.put names content

def changesSince (before after : FileTree) : List (String × ByteArray) :=
  after.entries.filterMap fun (names, entry) =>
    match entry with
    | .file content =>
      if (before.entries.lookup names).any (·.holds content) then none
      else some ("/".intercalate names, content)
    | .directory => none

end FileTree

end Wikitext
