/-!
The values of a settings file, and how its tables grow. A table is defined once: by its header, by
dotted keys, or inline; a table that was only named on the way to another may still be defined.
-/

namespace Wikitext.Toml

inductive TableKind where
  /-- Named on the way to a table with a header. -/
  | implicit
  | dotted
  | header
  | inline
  deriving DecidableEq, Repr

inductive Value where
  | string (s : String)
  | integer (n : Int)
  | datetime
  /-- A truth value or a number with a fraction or exponent. -/
  | scalar
  /-- An array; `grows` says that headers made it and may add tables to it. -/
  | array (grows : Bool) (items : List Value)
  | table (kind : TableKind) (entries : List (String × Value))

abbrev Entries := List (String × Value)

structure Table where
  kind : TableKind
  entries : Entries

namespace Table

def value (t : Table) : Value :=
  .table t.kind t.entries

def replace (t : Table) (key : String) (v : Value) : Table :=
  { t with entries := t.entries.map fun e => if e.1 = key then (key, v) else e }

def add (t : Table) (key : String) (v : Value) : Table :=
  { t with entries := t.entries ++ [(key, v)] }

/-- Changes the table at the end of a path, and makes the tables on the way that do not exist yet.
`dotted` says that the path is part of a dotted key and not of a header. -/
def changeAt (dotted : Bool) (path : List String) (change : Table → Option Table) (t : Table) :
    Option Table :=
  match path with
  | [] => change t
  | key :: path =>
    match t.entries.lookup key with
    | none =>
      (changeAt dotted path change ⟨if dotted then .dotted else .implicit, []⟩).map
        fun u => t.add key u.value
    | some (.table kind entries) =>
      if kind = .inline || (dotted && kind = .header) then none
      else (changeAt dotted path change ⟨kind, entries⟩).map fun u => t.replace key u.value
    | some (.array true items) =>
      match items.getLast? with
      | some (.table kind entries) =>
        (changeAt dotted path change ⟨kind, entries⟩).map
          fun u => t.replace key (.array true (items.dropLast ++ [u.value]))
      | _ => none
    | some _ => none

def define (path : List String) (key : String) (v : Value) (t : Table) : Option Table :=
  t.changeAt true path fun u =>
    if u.kind = .dotted ↔ path = [] then none
    else if (u.entries.lookup key).isSome then none
    else some (u.add key v)

def open? (key : String) (t : Table) : Option Table :=
  match t.entries.lookup key with
  | none => some (t.add key (.table .header []))
  | some (.table .implicit entries) => some (t.replace key (.table .header entries))
  | some _ => none

def openItem? (key : String) (t : Table) : Option Table :=
  match t.entries.lookup key with
  | none => some (t.add key (.array true [.table .header []]))
  | some (.array true items) => some (t.replace key (.array true (items ++ [.table .header []])))
  | some _ => none

end Table

end Wikitext.Toml
