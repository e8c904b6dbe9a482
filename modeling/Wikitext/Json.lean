import Wikitext.Text

/-!
JSON as it is printed for other programs: two blanks for each level, an entry on each line, empty
arrays and objects on one line, and only what must be escaped escaped.
-/

namespace Wikitext

inductive Json where
  | null
  | bool (b : Bool)
  | nat (n : Nat)
  | text (t : Text)
  | array (items : List Json)
  | object (fields : List (String × Json))

namespace Json

def hexDigit (n : Nat) : Char :=
  if n < 10 then Char.ofNat ('0'.toNat + n) else Char.ofNat ('a'.toNat + (n - 10))

def escape (c : Char) : Text :=
  if c = '"' then ['\\', '"']
  else if c = '\\' then ['\\', '\\']
  else if c = '\n' then ['\\', 'n']
  else if c = '\r' then ['\\', 'r']
  else if c = '\t' then ['\\', 't']
  else if c = '\x08' then ['\\', 'b']
  else if c = '\x0c' then ['\\', 'f']
  else if c.toNat < 0x20 then
    ['\\', 'u', '0', '0', hexDigit (c.toNat / 16), hexDigit (c.toNat % 16)]
  else [c]

def quote (t : Text) : Text :=
  '"' :: t.flatMap escape ++ ['"']

def indent (level : Nat) : Text :=
  '\n' :: List.replicate (2 * level) ' '

/-- Items on a line each between two brackets, nothing between the brackets when there are none. -/
def block (opening closing : Char) (level : Nat) (items : List Text) : Text :=
  match items with
  | [] => [opening, closing]
  | item :: more =>
    opening :: (indent (level + 1) ++ item) ++
      more.flatMap (fun i => ',' :: indent (level + 1) ++ i) ++ indent level ++ [closing]

mutual

def write (level : Nat) : Json → Text
  | null => "null".toList
  | bool b => (toString b).toList
  | nat n => (toString n).toList
  | text t => quote t
  | array items => block '[' ']' level (writeItems (level + 1) items)
  | object fields => block '{' '}' level (writeFields (level + 1) fields)

def writeItems (level : Nat) : List Json → List Text
  | [] => []
  | j :: js => write level j :: writeItems level js

def writeFields (level : Nat) : List (String × Json) → List Text
  | [] => []
  | (name, j) :: js =>
    (quote name.toList ++ [':', ' '] ++ write level j) :: writeFields level js

end

def print (j : Json) : Text :=
  write 0 j

end Json

end Wikitext
