/-!
Text as a list of characters, with the three readings the rest of the library takes of it: its
length in UTF-8 bytes, its parts between byte positions, and its parts around a first occurrence.
-/

namespace Wikitext

abbrev Text := List Char

namespace Text

def byteLength (t : Text) : Nat :=
  t.foldr (fun c n => c.utf8Size + n) 0

@[simp]
theorem byteLength_nil : byteLength [] = 0 := rfl

@[simp]
theorem byteLength_cons (c : Char) (t : Text) :
    byteLength (c :: t) = c.utf8Size + byteLength t := rfl

@[simp]
theorem byteLength_append (s t : Text) : byteLength (s ++ t) = byteLength s + byteLength t := by
  induction s with
  | nil => simp
  | cons c s ih => simp [ih, Nat.add_assoc]

/-- What follows the first `n` bytes; a character that straddles the cut is dropped. -/
def dropBytes (n : Nat) : Text → Text
  | [] => []
  | c :: r => if n = 0 then c :: r else dropBytes (n - c.utf8Size) r

def takeBytes (n : Nat) (t : Text) : Text :=
  t.take (t.length - (t.dropBytes n).length)

/-- The text between two byte positions, empty when they are out of order. -/
def slice (t : Text) (start stop : Nat) : Text :=
  (t.dropBytes start).takeBytes (stop - start)

@[simp]
theorem dropBytes_zero (t : Text) : t.dropBytes 0 = t := by
  cases t <;> simp [dropBytes]

@[simp]
theorem dropBytes_append (s t : Text) : (s ++ t).dropBytes s.byteLength = t := by
  induction s with
  | nil => simp
  | cons c s ih =>
    have := c.utf8Size_pos
    simp only [List.cons_append, dropBytes, byteLength_cons]
    rw [if_neg (by omega), Nat.add_sub_cancel_left, ih]

@[simp]
theorem takeBytes_append (s t : Text) : (s ++ t).takeBytes s.byteLength = s := by
  simp [takeBytes]

theorem slice_append (p s t : Text) :
    (p ++ (s ++ t)).slice p.byteLength (p.byteLength + s.byteLength) = s := by
  simp [slice]

/-- The parts of `t` before and after the first place where `pattern` stands. `before` is the text
already passed, the latest character first. -/
def breakOnFrom (pattern before : Text) : Text → Option (Text × Text)
  | [] => if pattern = [] then some (before.reverse, []) else none
  | c :: r =>
    if pattern.isPrefixOf (c :: r) then
      some (before.reverse, (c :: r).drop pattern.length)
    else breakOnFrom pattern (c :: before) r

def breakOn? (t pattern : Text) : Option (Text × Text) :=
  breakOnFrom pattern [] t

def hasFactor (t pattern : Text) : Bool :=
  (t.breakOn? pattern).isSome

theorem breakOnFrom_eq_append {pattern before t p q : Text}
    (h : breakOnFrom pattern before t = some (p, q)) : before.reverse ++ t = p ++ pattern ++ q := by
  induction t generalizing before with
  | nil =>
    simp only [breakOnFrom] at h
    split at h
    · simp_all
    · simp at h
  | cons c r ih =>
    simp only [breakOnFrom] at h
    split at h
    · rename_i hp
      obtain ⟨u, hu⟩ := List.isPrefixOf_iff_prefix.1 hp
      simp only [Option.some.injEq, Prod.mk.injEq] at h
      obtain ⟨rfl, rfl⟩ := h
      rw [← hu]
      simp
    · simpa using ih h

theorem breakOn?_eq_append {pattern t p q : Text} (h : t.breakOn? pattern = some (p, q)) :
    t = p ++ pattern ++ q := by
  simpa using breakOnFrom_eq_append h

/-- The maximal runs of characters that satisfy `keep`. `run` and `found` are what was read so far,
the latest first. -/
def runsFrom (keep : Char → Bool) (run : Text) (found : List Text) : Text → List Text
  | [] => (if run = [] then found else run.reverse :: found).reverse
  | c :: r =>
    if keep c then runsFrom keep (c :: run) found r
    else runsFrom keep [] (if run = [] then found else run.reverse :: found) r

def runs (keep : Char → Bool) (t : Text) : List Text :=
  runsFrom keep [] [] t

/-- The parts of a text between the places where `sep` stands; there is always one. -/
def splitOn (t : Text) (sep : Char) : List Text :=
  let (first, more) := t.foldr
    (fun c (part, parts) => if c = sep then ([], part :: parts) else (c :: part, parts)) ([], [])
  first :: more

/-- `f` of every non-empty suffix, the longest first, after the values `found`, the latest first. -/
def mapSuffixesOnto {α : Type} (f : Text → α) (found : List α) : Text → List α
  | [] => found.reverse
  | c :: r => mapSuffixesOnto f (f (c :: r) :: found) r

def mapSuffixes {α : Type} (f : Text → α) (t : Text) : List α :=
  mapSuffixesOnto f [] t

theorem mapSuffixesOnto_eq {α : Type} (f : Text → α) (found : List α) (t : Text) :
    mapSuffixesOnto f found t = found.reverse ++ mapSuffixes f t := by
  rw [mapSuffixes]
  induction t generalizing found with
  | nil => simp [mapSuffixesOnto]
  | cons c r ih => rw [mapSuffixesOnto, mapSuffixesOnto, ih, ih [_]]; simp

@[simp]
theorem mapSuffixes_nil {α : Type} (f : Text → α) : mapSuffixes f [] = [] := rfl

@[simp]
theorem mapSuffixes_cons {α : Type} (f : Text → α) (c : Char) (r : Text) :
    mapSuffixes f (c :: r) = f (c :: r) :: mapSuffixes f r := by
  rw [mapSuffixes, mapSuffixesOnto, mapSuffixesOnto_eq]
  rfl

end Text

end Wikitext
