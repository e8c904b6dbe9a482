import Wikitext.Text

/-!
Reading the small parts of a settings file: blanks, comments, line ends and strings. A reader takes
the text and gives what it read with the rest, or nothing when the text is not as it should be.
-/

namespace Wikitext.Toml

/-- Repeats a reader, each round with what the last one left, until it answers with a result. A
round that reads nothing ends the reading without one. -/
def repeatRead {σ ρ : Type} (round : σ → Text → Option ((σ ⊕ ρ) × Text)) (s : σ) (t : Text) :
    Option (ρ × Text) :=
  match round s t with
  | none => none
  | some (.inr r, rest) => some (r, rest)
  | some (.inl s', rest) =>
    if rest.length < t.length then repeatRead round s' rest else none
  termination_by t.length

def isBlank (c : Char) : Bool :=
  c = ' ' || c = '\t'

def isForbidden (c : Char) : Bool :=
  (c.toNat < 0x20 && c ≠ '\t') || c.toNat = 0x7F

def skipBlanks (t : Text) : Text :=
  t.dropWhile isBlank

def newline? : Text → Option Text
  | '\n' :: r => some r
  | '\r' :: '\n' :: r => some r
  | _ => none

def skipComment? (t : Text) : Option Text :=
  match t with
  | '#' :: r =>
    let rest := r.dropWhile (!isForbidden ·)
    if rest = [] || (newline? rest).isSome then some rest else none
  | _ => some t

/-- The text after the end of a line: blanks, perhaps a comment, and a line feed or the end. -/
def lineEnd? (t : Text) : Option Text :=
  match skipComment? (skipBlanks t) with
  | some [] => some []
  | some rest => newline? rest
  | none => none

def skipSpace? (t : Text) : Option Text :=
  (repeatRead (fun (_ : Unit) t =>
    match skipComment? (skipBlanks t) with
    | none => none
    | some rest =>
      match newline? rest with
      | some after => some (.inl (), after)
      | none => some (.inr (), rest)) () t).map (·.2)

def hexDigit? (c : Char) : Option Nat :=
  if '0' ≤ c && c ≤ '9' then some (c.toNat - '0'.toNat)
  else if 'a' ≤ c && c ≤ 'f' then some (c.toNat - 'a'.toNat + 10)
  else if 'A' ≤ c && c ≤ 'F' then some (c.toNat - 'A'.toNat + 10)
  else none

def codePoint? (n : Nat) (t : Text) : Option (Char × Text) :=
  match (t.take n).mapM hexDigit? with
  | none => none
  | some digits =>
    let value := digits.foldl (fun v d => v * 16 + d) 0
    if digits.length = n && (value < 0xD800 || (0xDFFF < value && value ≤ 0x10FFFF)) then
      some (Char.ofNat value, t.drop n)
    else none

def escape? : Text → Option (Char × Text)
  | 'b' :: r => some ('\x08', r)
  | 't' :: r => some ('\t', r)
  | 'n' :: r => some ('\n', r)
  | 'f' :: r => some ('\x0c', r)
  | 'r' :: r => some ('\r', r)
  | 'e' :: r => some ('\x1b', r)
  | '"' :: r => some ('"', r)
  | '\\' :: r => some ('\\', r)
  | 'x' :: r => codePoint? 2 r
  | 'u' :: r => codePoint? 4 r
  | 'U' :: r => codePoint? 8 r
  | _ => none

def lineString? (quote : Char) (t : Text) : Option (Text × Text) :=
  repeatRead (fun (read : Text) t =>
    match t with
    | [] => none
    | c :: r =>
      if c = quote then some (.inr read.reverse, r)
      else if isForbidden c then none
      else if c = '\\' && quote = '"' then
        (escape? r).map fun (d, rest) => (.inl (d :: read), rest)
      else some (.inl (c :: read), r)) [] t

def joinLines? (t : Text) : Option Text :=
  (newline? (skipBlanks t)).map fun rest =>
    rest.dropWhile fun c => isBlank c || c = '\n' || c = '\r'

/-- The rest of a string on several lines that ends with three of `quote`. Up to two more of them
belong to the string. -/
def linesString? (quote : Char) (t : Text) : Option (Text × Text) :=
  repeatRead (fun (read : Text) t =>
    match t with
    | [] => none
    | c :: r =>
      if c = quote then
        let n := min 5 (t.takeWhile (· = quote)).length
        if 3 ≤ n then
          some (.inr (read.reverse ++ List.replicate (n - 3) quote), t.drop n)
        else some (.inl (c :: read), r)
      else if c = '\\' && quote = '"' then
        match joinLines? r with
        | some rest => some (.inl read, rest)
        | none => (escape? r).map fun (d, rest) => (.inl (d :: read), rest)
      else
        match newline? t with
        | some rest => some (.inl ('\n' :: read), rest)
        | none => if isForbidden c then none else some (.inl (c :: read), r)) [] t

def shortString? : Text → Option (Text × Text)
  | '"' :: r => lineString? '"' r
  | '\'' :: r => lineString? '\'' r
  | _ => none

def string? (t : Text) : Option (Text × Text) :=
  match t with
  | '"' :: '"' :: '"' :: r => linesString? '"' ((newline? r).getD r)
  | '\'' :: '\'' :: '\'' :: r => linesString? '\'' ((newline? r).getD r)
  | _ => shortString? t

end Wikitext.Toml
