import Wikitext.Failure
import Wikitext.NameTable
import Wikitext.Toml.Document

/-!
The settings of a project: a name table for each language, the language to use when none is given,
and the limits on what is read. Entries that are not known are ignored, and those that are missing
have defaults; a known entry must be of its kind.
-/

namespace Wikitext

structure Settings where
  defaultLocale : Option String
  /-- The tables by language code, in the order of the codes. -/
  locales : List (String × NameTable)
  maxBytes : Nat
  maxDepth : Nat
  deriving DecidableEq, Repr

namespace Settings

def default : Settings := ⟨none, [], 10 * 1024 * 1024, 512⟩

def largest : Nat := 0xFFFFFFFFFFFFFFFF

open Toml (Entries Value)

/-- A string, or `absent` when the entry is missing; `none` when it is no string. -/
def locale? (es : Entries) : Option (Option String) :=
  match es.lookup "default_locale" with
  | none => some none
  | some (.string s) => some (some s)
  | some _ => none

def limit? (es : Entries) (key : String) (default : Nat) : Option Nat :=
  match es.lookup key with
  | none => some default
  | some (.integer n) => if 0 ≤ n && n ≤ largest then some n.toNat else none
  | some _ => none

def names? : Value → Option (List Text)
  | .array _ items => items.mapM fun
    | .string s => some s.toList
    | _ => none
  | _ => none

def namesOr? : Option Value → Option (List Text)
  | none => some []
  | some v => names? v

/-- A name table, written as a table or as an array of its lists in order. A date has none of the
entries. -/
def nameTable? : Value → Option NameTable
  | .table _ es => do
    return ⟨← namesOr? (es.lookup "namespaces"), ← namesOr? (es.lookup "alt_params"),
      ← namesOr? (es.lookup "magic_words")⟩
  | .array _ items => do
    return ⟨← namesOr? items[0]?, ← namesOr? items[1]?, ← namesOr? items[2]?⟩
  | .datetime => some .empty
  | _ => none

def locales? (es : Entries) : Option (List (String × NameTable)) :=
  match es.lookup "locales" with
  | none => some []
  | some (.table _ tables) => do
    let named ← tables.mapM fun (code, v) => (nameTable? v).map fun t => (code, t)
    return named.mergeSort fun a b => decide (a.1 ≤ b.1)
  | some _ => none

def ofEntries? (es : Entries) : Option Settings := do
  return ⟨← locale? es, ← locales? es, ← limit? es "max_file_size" default.maxBytes,
    ← limit? es "max_nesting_depth" default.maxDepth⟩

def parse (text : Text) : Except Failure Settings :=
  match Toml.parse? text with
  | none => .error (.invalidSettings "not a TOML document")
  | some es =>
    match ofEntries? es with
    | none => .error (.invalidSettings "an entry is not of its kind")
    | some s => .ok s

def available (s : Settings) : String :=
  if s.locales = [] then "none" else ", ".intercalate (s.locales.map (·.1))

def table (s : Settings) (code : String) : Except Failure NameTable :=
  match s.locales.lookup code with
  | some t => .ok t
  | none => .error (.unknownLocale code s.available)

end Settings

end Wikitext
