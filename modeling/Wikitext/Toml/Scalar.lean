import Wikitext.Text
import Wikitext.Toml.Value

/-!
Truth values, numbers, dates and times. A scalar is read up to the first character that none of them
may hold, and must then be one of them in full.
-/

namespace Wikitext.Toml

def isScalarChar (c : Char) : Bool :=
  c.isAlphanum || c = '_' || c = '+' || c = '-' || c = '.' || c = ':'

/-- Digits in groups with an underscore between each two. -/
def areGroups (isDigit : Char → Bool) (t : Text) : Bool :=
  let digits := t.filter (· ≠ '_')
  digits ≠ [] && digits.all isDigit && t.head? ≠ some '_' && t.getLast? ≠ some '_' &&
    !Text.hasFactor t ['_', '_']

def isDecimal (t : Text) : Bool :=
  areGroups Char.isDigit t && (t.head? ≠ some '0' || t.length = 1)

def digitsValue (base : Nat) (t : Text) : Nat :=
  (t.filter (· ≠ '_')).foldl (fun v c =>
    v * base + if c.isDigit then c.toNat - '0'.toNat else c.toLower.toNat - 'a'.toNat + 10) 0

def isDigitOf (base : Nat) (c : Char) : Bool :=
  if c.isDigit then c.toNat - '0'.toNat < base
  else base = 16 && 'a' ≤ c.toLower && c.toLower ≤ 'f'

def integer? (t : Text) : Option Int :=
  match t with
  | '0' :: 'x' :: r => if areGroups (isDigitOf 16) r then some (digitsValue 16 r) else none
  | '0' :: 'o' :: r => if areGroups (isDigitOf 8) r then some (digitsValue 8 r) else none
  | '0' :: 'b' :: r => if areGroups (isDigitOf 2) r then some (digitsValue 2 r) else none
  | '+' :: r => if isDecimal r then some (digitsValue 10 r) else none
  | '-' :: r => if isDecimal r then some (-(digitsValue 10 r : Int)) else none
  | r => if isDecimal r then some (digitsValue 10 r) else none

def unsigned (t : Text) : Text :=
  match t with
  | '+' :: r => r
  | '-' :: r => r
  | _ => t

def isFraction (t : Text) : Bool :=
  let t := unsigned t
  let mantissa := t.takeWhile fun c => c ≠ 'e' && c ≠ 'E'
  let exponent := t.drop mantissa.length
  let whole := mantissa.takeWhile (· ≠ '.')
  let fraction := mantissa.drop whole.length
  t = ['i', 'n', 'f'] || t = ['n', 'a', 'n'] ||
    (isDecimal whole && !(fraction = [] && exponent = []) &&
      (fraction = [] || areGroups Char.isDigit fraction.tail) &&
      (exponent = [] || areGroups Char.isDigit (unsigned exponent.tail)))

def fixedDigits? (n : Nat) (t : Text) : Option Nat :=
  if t.length = n && t.all Char.isDigit then some (digitsValue 10 t) else none

def daysIn (year month : Nat) : Nat :=
  if month = 2 then
    if year % 4 = 0 && (year % 100 ≠ 0 || year % 400 = 0) then 29 else 28
  else if month = 4 || month = 6 || month = 9 || month = 11 then 30
  else 31

def isDate (t : Text) : Bool :=
  match fixedDigits? 4 (t.take 4), fixedDigits? 2 ((t.drop 5).take 2),
      fixedDigits? 2 (t.drop 8) with
  | some year, some month, some day =>
    t[4]? = some '-' && t[7]? = some '-' && 1 ≤ month && month ≤ 12 && 1 ≤ day &&
      day ≤ daysIn year month
  | _, _, _ => false

def isHourMinute (t : Text) : Bool :=
  match fixedDigits? 2 (t.take 2), fixedDigits? 2 (t.drop 3) with
  | some hour, some minute => t[2]? = some ':' && hour ≤ 23 && minute ≤ 59
  | _, _ => false

def isSeconds (t : Text) : Bool :=
  match t with
  | ':' :: r =>
    match fixedDigits? 2 (r.take 2), r.drop 2 with
    | some second, [] => second ≤ 60
    | some second, '.' :: fraction =>
      second ≤ 60 && fraction ≠ [] && fraction.all Char.isDigit
    | _, _ => false
  | _ => false

def isTime (t : Text) : Bool :=
  isHourMinute (t.take 5) && (t.length = 5 || isSeconds (t.drop 5))

def isOffsetTime (t : Text) : Bool :=
  let time := t.takeWhile fun c => c.isDigit || c = ':' || c = '.'
  isTime time &&
    match t.drop time.length with
    | [] => true
    | ['Z'] => true
    | ['z'] => true
    | '+' :: r => isHourMinute r
    | '-' :: r => isHourMinute r
    | _ => false

def isDatetime (t : Text) : Bool :=
  isDate t || isTime t ||
    (isDate (t.take 10) && (t[10]? = some 'T' || t[10]? = some 't' || t[10]? = some ' ') &&
      isOffsetTime (t.drop 11))

/-- The characters of a scalar: a blank may part a date from the time after it. -/
def scalarText (t : Text) : Text :=
  let first := t.takeWhile isScalarChar
  match t.drop first.length with
  | ' ' :: c :: r =>
    if isDate first && c.isDigit then first ++ ' ' :: (c :: r).takeWhile isScalarChar else first
  | _ => first

def isHeld (n : Int) : Bool :=
  -0x80000000000000000000000000000000 ≤ n && n ≤ 0xFFFFFFFFFFFFFFFFFFFFFFFFFFFFFFFF

def scalarOf? (t : Text) : Option Value :=
  match integer? t with
  | some n => if isHeld n then some (.integer n) else none
  | none =>
    if isDatetime t then some .datetime
    else if isFraction t || t = ['t', 'r', 'u', 'e'] || t = ['f', 'a', 'l', 's', 'e'] then
      some .scalar
    else none

def scalar? (t : Text) : Option (Value × Text) :=
  let read := scalarText t
  (scalarOf? read).map fun v => (v, t.drop read.length)

end Wikitext.Toml
