import Wikitext.Toml.Scalar
import Wikitext.Toml.Scan

/-!
Settings files as a whole: lines of keys with their values, and headers that say to which table the
lines below them belong.
-/

namespace Wikitext.Toml

def isKeyChar (c : Char) : Bool :=
  c.isAlphanum || c = '_' || c = '-'

def keyPart? (t : Text) : Option (String × Text) :=
  match shortString? t with
  | some (s, rest) => some (String.ofList s, rest)
  | none =>
    let read := t.takeWhile isKeyChar
    if read = [] then none else some (String.ofList read, t.drop read.length)

/-- A key: parts with dots between them. The last part comes apart from those before it. -/
def key? (t : Text) : Option ((List String × String) × Text) :=
  repeatRead (fun (read : List String) t =>
    match keyPart? (skipBlanks t) with
    | none => none
    | some (part, rest) =>
      match skipBlanks rest with
      | '.' :: more => some (.inl (part :: read), more)
      | more => some (.inr (read.reverse, part), more)) [] t

def assignment? (value? : Text → Option (Value × Text)) (t : Text) :
    Option ((List String × String × Value) × Text) :=
  match key? t with
  | some ((path, key), '=' :: rest) =>
    (value? (skipBlanks rest)).map fun (v, after) => ((path, key, v), after)
  | _ => none

def array? (value? : Text → Option (Value × Text)) (t : Text) : Option (Value × Text) :=
  repeatRead (fun (read : List Value) t =>
    match skipSpace? t with
    | none => none
    | some (']' :: rest) => some (.inr (.array false read.reverse), rest)
    | some rest =>
      match value? rest with
      | none => none
      | some (v, after) =>
        match skipSpace? after with
        | some (',' :: more) => some (.inl (v :: read), more)
        | some (']' :: more) => some (.inr (.array false (v :: read).reverse), more)
        | _ => none) [] t

def inlineTable? (value? : Text → Option (Value × Text)) (t : Text) : Option (Value × Text) :=
  repeatRead (fun (read : Table) t =>
    match skipSpace? t with
    | none => none
    | some ('}' :: rest) => some (.inr (.table .inline read.entries), rest)
    | some rest =>
      match assignment? value? rest with
      | none => none
      | some ((path, key, v), after) =>
        match read.define path key v, skipSpace? after with
        | some next, some (',' :: more) => some (.inl next, more)
        | some next, some ('}' :: more) => some (.inr (.table .inline next.entries), more)
        | _, _ => none) ⟨.header, []⟩ t

def value? : Nat → Text → Option (Value × Text)
  | 0, _ => none
  | depth + 1, t =>
    match t with
    | '[' :: r => array? (value? depth) r
    | '{' :: r => inlineTable? (value? depth) r
    | '"' :: _ | '\'' :: _ => (string? t).map fun (s, rest) => (.string (String.ofList s), rest)
    | _ => scalar? t

def maxDepth : Nat := 80

structure Progress where
  root : Table
  here : List String

def header? (p : Progress) (t : Text) : Option (Progress × Text) :=
  match t with
  | '[' :: r =>
    match key? r with
    | some ((path, key), ']' :: ']' :: rest) =>
      (p.root.changeAt false path (Table.openItem? key)).map
        fun root => (⟨root, path ++ [key]⟩, rest)
    | _ => none
  | _ =>
    match key? t with
    | some ((path, key), ']' :: rest) =>
      (p.root.changeAt false path (Table.open? key)).map fun root => (⟨root, path ++ [key]⟩, rest)
    | _ => none

def line? (p : Progress) (t : Text) : Option (Progress × Text) :=
  match t with
  | [] | '#' :: _ | '\n' :: _ | '\r' :: _ => some (p, t)
  | '[' :: r => header? p r
  | _ =>
    match assignment? (value? maxDepth) t with
    | some ((path, key, v), rest) =>
      (p.root.changeAt false p.here (Table.define path key v)).map
        fun root => (⟨root, p.here⟩, rest)
    | none => none

/-- The table that a file describes. A byte order mark may open the file. -/
def parse? (t : Text) : Option Entries :=
  let text := if t.head? = some '\uFEFF' then t.tail else t
  (repeatRead (fun (p : Progress) t =>
    match line? p (skipBlanks t) with
    | none => none
    | some (next, rest) =>
      match lineEnd? rest with
      | none => none
      | some [] => some (.inr next.root.entries, [])
      | some after => some (.inl next, after)) ⟨⟨.header, []⟩, []⟩ text).map (·.1)

end Wikitext.Toml
