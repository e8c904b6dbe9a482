import Mathlib.Data.List.TakeWhile
import Mathlib.Logic.Relation
import Wikitext.Command.Arguments

/-! An option that is given once more adds one entry to what is read and disturbs nothing else: the
arguments without it are read as they were, with every other option and every operand the same. -/

namespace Wikitext.Command

namespace Reading

/-- The second reading has one option more than the first. -/
structure Extra (name v : String) (r r' : Reading) : Prop where
  operands : r'.operands = r.operands
  pending : r'.pending = r.pending
  literal : r'.literal = r.literal
  options : ∃ later earlier, r.options = later ++ earlier ∧
    r'.options = later ++ (name, v) :: earlier

variable {name v w : String} {r r' s' : Reading} {o : OptionSpec}

theorem Extra.value?_eq (h : r.Extra name v r') {other : String} (hne : other ≠ name) :
    r'.value? other = r.value? other := by
  obtain ⟨later, earlier, hr, hr'⟩ := h.options
  rw [value?, value?, hr, hr', List.lookup_append, List.lookup_append, List.lookup_cons,
    beq_false_of_ne hne]

theorem Extra.has_eq (h : r.Extra name v r') {other : String} (hne : other ≠ name) :
    r'.has other = r.has other := by
  rw [has, has, h.value?_eq hne]

theorem Extra.values_eq (h : r.Extra name v r') {other : String} (hne : other ≠ name) :
    r'.values other = r.values other := by
  obtain ⟨later, earlier, hr, hr'⟩ := h.options
  simp [values, hr, hr', Ne.symm hne]

theorem Extra.exists_values (h : r.Extra name v r') : ∃ earlier later,
    r.values name = earlier ++ later ∧ r'.values name = earlier ++ v :: later := by
  obtain ⟨later, earlier, hr, hr'⟩ := h.options
  refine ⟨(earlier.reverse.filter (·.1 = name)).map (·.2),
    (later.reverse.filter (·.1 = name)).map (·.2), ?_, ?_⟩
  · simp [values, hr]
  · simp [values, hr']

theorem Extra.isSome_lookup (h : r.Extra name v r') {other : String}
    (hr : (r'.options.lookup other).isSome = false) : (r.options.lookup other).isSome = false := by
  obtain ⟨later, earlier, ho, ho'⟩ := h.options
  rw [ho', List.lookup_append, List.lookup_cons, Option.isSome_or, Bool.or_eq_false_iff] at hr
  rw [ho, List.lookup_append, Option.isSome_or, hr.1, Bool.false_or]
  have hearlier := hr.2
  split at hearlier
  · cases hearlier
  · exact hearlier

theorem filter_eq_nil_iff {options : List (String × String)} :
    options.filter (·.1 = name) = [] ↔ (options.lookup name).isSome = false := by
  rw [Option.isSome_eq_false_iff, Option.isNone_iff_eq_none, List.lookup_eq_none_iff,
    List.filter_eq_nil_iff]
  refine forall₂_congr fun p _ => ?_
  rw [decide_eq_true_eq, bne_iff_ne, ne_comm]

theorem Extra.has_eq_false (h : r.Extra name v r')
    (honce : (r'.options.filter (·.1 = name)).length ≤ 1) : r.has name = false := by
  obtain ⟨later, earlier, hr, hr'⟩ := h.options
  rw [has, value?, ← filter_eq_nil_iff, hr, List.filter_append]
  simp only [hr', List.filter_append, List.filter_cons, decide_true, if_true, List.length_append,
    List.length_cons] at honce
  rw [List.append_eq_nil_iff, ← List.length_eq_zero_iff, ← List.length_eq_zero_iff]
  omega

theorem add?_eq_some : r.add? o w = some s' ↔ o.accepts w = true ∧
    (o.repeats = true ∨ (r.options.lookup o.name).isSome = false) ∧
    s' = { r with options := (o.name, w) :: r.options, pending := none } := by
  rw [add?]
  split
  · rename_i h
    simp only [Bool.or_eq_true, Bool.not_eq_true', Bool.and_eq_true] at h
    constructor
    · intro hn
      cases hn
    · rintro ⟨ha, hb, -⟩
      rcases h with h | ⟨h, h'⟩
      · simp [ha] at h
      · simp [h, h'] at hb
  · rename_i h
    simp only [Bool.or_eq_true, Bool.not_eq_true', Bool.and_eq_true, not_or, not_and,
      Bool.not_eq_false, Bool.not_eq_true] at h
    simp only [Option.some.injEq, h.1, true_and]
    constructor
    · rintro rfl
      refine ⟨?_, rfl⟩
      cases hrep : o.repeats with
      | true => exact .inl rfl
      | false => exact .inr (h.2 hrep)
    · rintro ⟨-, rfl⟩
      rfl

theorem Extra.add? (h : r.Extra name v r') (hadd : r'.add? o w = some s') :
    ∃ s, r.add? o w = some s ∧ s.Extra name v s' := by
  obtain ⟨haccepts, honce, rfl⟩ := add?_eq_some.mp hadd
  obtain ⟨later, earlier, hr, hr'⟩ := h.options
  refine ⟨_, add?_eq_some.mpr ⟨haccepts, honce.imp_right h.isSome_lookup, rfl⟩, h.operands, rfl,
    h.literal, (o.name, w) :: later, earlier, by simp [hr], by simp [hr']⟩

theorem addOperand?_eq_some {most : Nat} : r.addOperand? most w = some s' ↔
    w ≠ "" ∧ r.operands.length < most ∧ s' = { r with operands := w :: r.operands } := by
  rw [addOperand?]
  split
  · rename_i h
    simp only [Bool.or_eq_true, decide_eq_true_eq] at h
    constructor
    · intro hn
      cases hn
    · rintro ⟨ha, hb, -⟩
      rcases h with h | h
      · exact absurd h ha
      · omega
  · rename_i h
    simp only [Bool.or_eq_true, decide_eq_true_eq, not_or, Nat.not_le] at h
    simp [h, eq_comm]

theorem Extra.addOperand? {most : Nat} (h : r.Extra name v r')
    (hadd : r'.addOperand? most w = some s') :
    ∃ s, r.addOperand? most w = some s ∧ s.Extra name v s' := by
  obtain ⟨hne, hlt, rfl⟩ := addOperand?_eq_some.mp hadd
  rw [h.operands] at hlt
  exact ⟨_, addOperand?_eq_some.mpr ⟨hne, hlt, rfl⟩, by simp [h.operands], h.pending, h.literal,
    h.options⟩

theorem Extra.await (h : r.Extra name v r') (o : Option OptionSpec) :
    Extra name v { r with pending := o } { r' with pending := o } :=
  ⟨h.operands, rfl, h.literal, h.options⟩

theorem Extra.literally (h : r.Extra name v r') :
    Extra name v { r with literal := true } { r' with literal := true } :=
  ⟨h.operands, h.pending, rfl, h.options⟩

theorem map_more_eq_some {x : Option Reading} {s : Reading} :
    x.map Outcome.more = some (.more s) ↔ x = some s := by
  cases x <;> simp

end Reading

open Reading

namespace Level

variable {level : Level} {name v arg : String} {r r' s' : Reading}

theorem readLong?_of_extra (h : r.Extra name v r') {text : List Char}
    (hs : level.readLong? r' text = some (.more s')) :
    ∃ s, level.readLong? r text = some (.more s) ∧ s.Extra name v s' := by
  simp only [readLong?] at hs ⊢
  split at hs
  · split at hs
    · rename_i htakes
      obtain ⟨s, hadd, hextra⟩ := h.add? (map_more_eq_some.mp hs)
      exact ⟨s, by rw [if_pos htakes, map_more_eq_some, hadd], hextra⟩
    · cases hs
  · split at hs
    · rename_i htakes
      cases hs
      exact ⟨_, if_pos htakes, h.await _⟩
    · rename_i htakes
      obtain ⟨s, hadd, hextra⟩ := h.add? (map_more_eq_some.mp hs)
      exact ⟨s, by rw [if_neg htakes, map_more_eq_some, hadd], hextra⟩
  · cases hs
  · split at hs
    · cases hs
    · split at hs <;> cases hs

theorem readLetters?_of_extra (h : r.Extra name v r') {letters : List Char}
    (hs : level.readLetters? r' letters = some (.more s')) :
    ∃ s, level.readLetters? r letters = some (.more s) ∧ s.Extra name v s' := by
  induction letters generalizing r r' with
  | nil =>
    cases hs
    exact ⟨r, rfl, h⟩
  | cons c cs ih =>
    simp only [readLetters?] at hs ⊢
    split at hs
    · rename_i o ho
      split at hs
      · rename_i htakes
        rw [if_pos htakes]
        split at hs
        · cases hs
          exact ⟨_, rfl, h.await _⟩
        · obtain ⟨s, hadd, hextra⟩ := h.add? (map_more_eq_some.mp hs)
          exact ⟨s, by rw [map_more_eq_some, hadd], hextra⟩
        · obtain ⟨s, hadd, hextra⟩ := h.add? (map_more_eq_some.mp hs)
          exact ⟨s, map_more_eq_some.mpr hadd, hextra⟩
      · rename_i htakes
        rw [if_neg htakes]
        split at hs
        · rename_i s'' hadd'
          obtain ⟨s, hadd, hextra⟩ := h.add? hadd'
          rw [hadd]
          exact ih hextra hs
        · cases hs
    · split at hs
      · cases hs
      · split at hs <;> cases hs

theorem readOption?_of_extra (h : r.Extra name v r')
    (hs : level.readOption? r' arg = some (.more s')) :
    ∃ s, level.readOption? r arg = some (.more s) ∧ s.Extra name v s' := by
  simp only [readOption?] at hs ⊢
  split at hs
  · cases hs
    exact ⟨_, rfl, h.literally⟩
  · exact readLong?_of_extra h hs
  · exact readLetters?_of_extra h hs
  · cases hs

theorem read?_of_extra (h : r.Extra name v r') (hs : level.read? r' arg = some (.more s')) :
    ∃ s, level.read? r arg = some (.more s) ∧ s.Extra name v s' := by
  simp only [read?, h.literal, h.pending] at hs ⊢
  split at hs
  · rename_i hliteral
    obtain ⟨s, hadd, hextra⟩ := h.addOperand? (map_more_eq_some.mp hs)
    exact ⟨s, by rw [if_pos hliteral, map_more_eq_some, hadd], hextra⟩
  · rename_i hliteral
    rw [if_neg hliteral]
    split at hs
    · split at hs
      · cases hs
      · rename_i hoption
        obtain ⟨s, hadd, hextra⟩ := h.add? (map_more_eq_some.mp hs)
        exact ⟨s, by rw [if_neg hoption, map_more_eq_some, hadd], hextra⟩
    · split at hs
      · rename_i hoption
        rw [if_pos hoption]
        exact readOption?_of_extra h hs
      · rename_i hoption
        obtain ⟨s, hadd, hextra⟩ := h.addOperand? (map_more_eq_some.mp hs)
        exact ⟨s, by rw [if_neg hoption, map_more_eq_some, hadd], hextra⟩

/-- Arguments read one after another. -/
inductive Reads (level : Level) : Reading → List String → Reading → Prop
  | nil {r : Reading} : Reads level r [] r
  | cons {r m s : Reading} {arg : String} {args : List String}
      (h : level.read? r arg = some (.more m)) (h' : Reads level m args s) :
      Reads level r (arg :: args) s

theorem readAll?_eq_some {args : List String} {s : Reading} :
    level.readAll? r args = some (.more s) ↔ level.Reads r args s ∧ s.pending = none := by
  induction args generalizing r with
  | nil =>
    rw [readAll?]
    constructor
    · intro h
      split at h
      · cases h
      · rename_i hpending
        cases h
        exact ⟨.nil, Option.not_isSome_iff_eq_none.mp hpending⟩
    · rintro ⟨h, hpending⟩
      cases h
      rw [hpending]
      rfl
  | cons arg args ih =>
    rw [readAll?]
    constructor
    · intro h
      split at h
      · rename_i m hm
        obtain ⟨hreads, hpending⟩ := ih.mp h
        exact ⟨.cons hm hreads, hpending⟩
      · rename_i hno
        exact absurd h (hno s)
    · rintro ⟨h, hpending⟩
      cases h with
      | cons hm hreads =>
        rw [hm]
        exact ih.mpr ⟨hreads, hpending⟩

theorem reads_append {xs ys : List String} {s : Reading} :
    level.Reads r (xs ++ ys) s ↔ ∃ m, level.Reads r xs m ∧ level.Reads m ys s := by
  constructor
  · intro h
    induction xs generalizing r with
    | nil => exact ⟨r, .nil, h⟩
    | cons x xs ih =>
      cases h with
      | cons hx h =>
        obtain ⟨m, hm, h⟩ := ih h
        exact ⟨m, .cons hx hm, h⟩
  · rintro ⟨m, hm, h⟩
    induction hm with
    | nil => exact h
    | cons hx _ ih => exact .cons hx (ih h)

/-- What is read without the option is what is read with it, less that option. -/
theorem Reads.of_extra {args : List String} (h : r.Extra name v r')
    (hs : level.Reads r' args s') : ∃ s, level.Reads r args s ∧ s.Extra name v s' := by
  induction hs generalizing r with
  | nil => exact ⟨r, .nil, h⟩
  | cons hread _ ih =>
    obtain ⟨m, hm, hextra⟩ := read?_of_extra h hread
    obtain ⟨s, hreads, hs⟩ := ih hextra
    exact ⟨s, .cons hm hreads, hs⟩

/-- What an argument can do to what was read. An option that takes no value and has no letter is
given only by its name in full. -/
inductive Move (level : Level) (arg : String) : Reading → Reading → Prop
  | operand {r s : Reading} (h : r.addOperand? level.operands arg = some s) : Move level arg r s
  | literally {r : Reading} (hl : r.literal = false) (h : arg = "--") :
      Move level arg r { r with literal := true }
  | await {r : Reading} {o : OptionSpec} (hl : r.literal = false) (ho : o ∈ level.options)
      (h : o.takesValue = true) : Move level arg r { r with pending := some o }
  | add {r s : Reading} {o : OptionSpec} {v : String} (hl : r.literal = false)
      (ho : o ∈ level.options ∨ r.pending = some o)
      (hbare : o.takesValue = false → o.letter = none → arg = "--" ++ o.name)
      (h : r.add? o v = some s) : Move level arg r s

variable {s : Reading}

theorem eq_append_of_takeWhile {text : List Char} {p : Char → Bool} {n : String}
    (hn : String.ofList (text.takeWhile p) = n) (hrest : text.dropWhile p = []) :
    text = n.toList := by
  have hall := List.takeWhile_append_dropWhile (p := p) (l := text)
  rw [hrest, List.append_nil] at hall
  rw [← hn, String.toList_ofList, hall]

theorem move_of_readLong? (hl : r.literal = false) {text : List Char}
    (harg : arg = String.ofList ('-' :: '-' :: text))
    (h : level.readLong? r text = some (.more s)) : level.Move arg r s := by
  simp only [readLong?] at h
  split at h
  · rename_i o v ho _
    split at h
    · rename_i htakes
      exact .add hl (.inl (List.mem_of_find?_eq_some ho)) (by simp [htakes])
        (map_more_eq_some.mp h)
    · cases h
  · rename_i o ho hrest
    split at h
    · rename_i htakes
      cases h
      exact .await hl (List.mem_of_find?_eq_some ho) htakes
    · refine .add hl (.inl (List.mem_of_find?_eq_some ho)) (fun _ _ => ?_) (map_more_eq_some.mp h)
      have hname := List.find?_some ho
      have hempty : text.dropWhile (· ≠ '=') = [] := by
        split at hrest
        · assumption
        · cases hrest
      rw [harg, eq_append_of_takeWhile (of_decide_eq_true hname).symm hempty]
      rw [← String.toList_inj]
      simp
  · cases h
  · split at h
    · cases h
    · split at h <;> cases h

theorem moves_of_readLetters? (hl : r.literal = false) {letters : List Char}
    (h : level.readLetters? r letters = some (.more s)) :
    Relation.ReflTransGen (level.Move arg) r s := by
  induction letters generalizing r with
  | nil =>
    cases h
    exact .refl
  | cons c cs ih =>
    simp only [readLetters?] at h
    split at h
    · rename_i o ho
      have hmem := List.mem_of_find?_eq_some ho
      have hletter : o.letter = some c := by simpa using List.find?_some ho
      have hadd {v : String} {s : Reading} (h : r.add? o v = some s) : level.Move arg r s :=
        .add hl (.inl hmem) (by simp [hletter]) h
      split at h
      · rename_i htakes
        split at h
        · cases h
          exact .single (.await hl hmem htakes)
        · exact .single (hadd (map_more_eq_some.mp h))
        · exact .single (hadd (map_more_eq_some.mp h))
      · split at h
        · rename_i r' hr'
          exact .head (hadd hr') (ih (by rw [(add?_eq_some.mp hr').2.2]; exact hl) h)
        · cases h
    · split at h
      · cases h
      · split at h <;> cases h

theorem moves_of_read? (hawait : ∀ o, r.pending = some o → o.takesValue = true)
    (h : level.read? r arg = some (.more s)) : Relation.ReflTransGen (level.Move arg) r s := by
  rw [read?] at h
  split at h
  · exact .single (.operand (map_more_eq_some.mp h))
  · rename_i hl
    rw [Bool.not_eq_true] at hl
    split at h
    · rename_i o ho
      split at h
      · cases h
      · exact .single (.add hl (.inr ho) (by simp [hawait o ho]) (map_more_eq_some.mp h))
    · split at h
      · rw [readOption?] at h
        split at h
        · rename_i harg
          cases h
          exact .single (.literally hl (by rw [← String.toList_inj, harg]; rfl))
        · rename_i harg
          exact .single (move_of_readLong? hl (by rw [← harg, String.ofList_toList]) h)
        · exact moves_of_readLetters? hl h
        · cases h
      · exact .single (.operand (map_more_eq_some.mp h))

/-- What every reading of arguments keeps: an option that waits takes a value, and one that may not
repeat was given once. -/
structure Sound (level : Level) (r : Reading) : Prop where
  pending : ∀ o, r.pending = some o → o ∈ level.options ∧ o.takesValue = true
  once : ∀ o ∈ level.options, o.repeats = false →
    (r.options.filter (·.1 = o.name)).length ≤ 1

/-- No two options of a level have one name. -/
def Distinct (level : Level) : Prop :=
  ∀ o ∈ level.options, ∀ o' ∈ level.options, o.name = o'.name → o = o'

theorem sound_empty (level : Level) : level.Sound .empty :=
  ⟨fun _ h => (by cases h), fun _ _ _ => Nat.zero_le 1⟩

theorem Sound.move (hd : level.Distinct) (h : level.Sound r) (hm : level.Move arg r s) :
    level.Sound s := by
  cases hm with
  | operand hadd =>
    obtain ⟨-, -, rfl⟩ := addOperand?_eq_some.mp hadd
    exact ⟨h.pending, h.once⟩
  | literally => exact ⟨h.pending, h.once⟩
  | await _ ho htakes => exact ⟨by rintro o ⟨⟩; exact ⟨ho, htakes⟩, h.once⟩
  | add hl ho hby hadd =>
    rename_i o v
    obtain ⟨-, honce, rfl⟩ := add?_eq_some.mp hadd
    have hmem : o ∈ level.options := ho.elim id fun ho => (h.pending o ho).1
    refine ⟨fun _ hp => (by cases hp), fun o' ho' hrepeats => ?_⟩
    by_cases hname : o.name = o'.name
    · obtain rfl := hd o hmem o' ho' hname
      have hnone := filter_eq_nil_iff.mpr (honce.resolve_left (by simp [hrepeats]))
      simp [hnone]
    · simpa [hname] using h.once o' ho' hrepeats

theorem Sound.moves (hd : level.Distinct) (h : level.Sound r)
    (hm : Relation.ReflTransGen (level.Move arg) r s) : level.Sound s := by
  induction hm with
  | refl => exact h
  | tail _ hm ih => exact ih.move hd hm

theorem Sound.read? (hd : level.Distinct) (h : level.Sound r)
    (hr : level.read? r arg = some (.more s)) : level.Sound s :=
  h.moves hd (moves_of_read? (fun o ho => (h.pending o ho).2) hr)

theorem Sound.reads (hd : level.Distinct) (h : level.Sound r) {args : List String}
    (hr : level.Reads r args s) : level.Sound s := by
  induction hr with
  | nil => exact h
  | cons hread _ ih => exact ih (h.read? hd hread)

/-- After `--` nothing is an option. -/
theorem Reads.options_eq (hl : r.literal = true) {args : List String}
    (h : level.Reads r args s) : s.options = r.options := by
  induction h with
  | nil => rfl
  | cons hread _ ih =>
    rw [Level.read?, if_pos hl, map_more_eq_some, addOperand?_eq_some] at hread
    obtain ⟨-, -, rfl⟩ := hread
    exact ih hl

theorem literal_of_move (hm : level.Move arg r s) (hl : r.literal = false) (harg : arg ≠ "--") :
    s.literal = false := by
  cases hm with
  | operand hadd => rwa [(addOperand?_eq_some.mp hadd).2.2]
  | literally _ he => exact absurd he harg
  | await => exact hl
  | add _ _ _ hadd => rwa [(add?_eq_some.mp hadd).2.2]

theorem literal_of_moves (hm : Relation.ReflTransGen (level.Move arg) r s)
    (hl : r.literal = false) (harg : arg ≠ "--") : s.literal = false := by
  induction hm with
  | refl => exact hl
  | tail _ hm ih => exact literal_of_move hm ih harg

theorem has_of_moves (hd : level.Distinct) (h : level.Sound r)
    (hm : Relation.ReflTransGen (level.Move arg) r s) {o : OptionSpec} (ho : o ∈ level.options)
    (hbare : o.takesValue = false) (hletter : o.letter = none) (harg : arg ≠ "--" ++ o.name) :
    s.has o.name = r.has o.name := by
  induction hm with
  | refl => rfl
  | tail hms hm ih =>
    rw [← ih]
    cases hm with
    | operand hadd => rw [(addOperand?_eq_some.mp hadd).2.2]; rfl
    | literally => rfl
    | await => rfl
    | add hl ho' hby hadd =>
      rename_i o' v
      have hmem := ho'.elim id fun hp => ((h.moves hd hms).pending o' hp).1
      have hne : o'.name ≠ o.name := by
        intro he
        obtain rfl := hd o' hmem o ho he
        exact harg (hby hbare hletter)
      rw [(add?_eq_some.mp hadd).2.2, has, has, value?, value?, List.lookup_cons,
        beq_false_of_ne hne.symm]

/-- How an option is given: by its name, with its value behind it or attached to it. -/
inductive Given : OptionSpec → String → List String → Prop
  | bare {o : OptionSpec} (h : o.takesValue = false) : Given o "" ["--" ++ o.name]
  | apart {o : OptionSpec} (h : o.takesValue = true) (v : String) : Given o v ["--" ++ o.name, v]
  | attached {o : OptionSpec} (h : o.takesValue = true) (v : String) :
      Given o v ["--" ++ o.name ++ "=" ++ v]

/-- An option is found by its name, which is not empty and holds no `=`. -/
structure Finds (level : Level) (o : OptionSpec) : Prop where
  find?_eq : level.options.find? (·.name = o.name) = some o
  name_ne : o.name.toList ≠ []
  plain : '=' ∉ o.name.toList

theorem Finds.all_plain {o : OptionSpec} (h : level.Finds o) :
    ∀ c ∈ o.name.toList, decide (c ≠ '=') = true :=
  fun _ hc => decide_eq_true (ne_of_mem_of_not_mem hc h.plain)

theorem read?_long {text : List Char} (hl : r.literal = false) (hp : r.pending = none)
    (harg : arg.toList = '-' :: '-' :: text) (hne : text ≠ []) :
    level.read? r arg = level.readLong? r text := by
  obtain ⟨c, cs, rfl⟩ := List.exists_cons_of_ne_nil hne
  simp [Level.read?, hl, hp, isOption, readOption?, harg]

theorem read?_of_pending {o : OptionSpec} (hp : r.pending = some o) (ho : isOption arg = true)
    (hl : r.literal = false) : level.read? r arg = none := by
  simp [Level.read?, hl, hp, ho]

theorem isOption_long {text : List Char} (harg : arg.toList = '-' :: '-' :: text) :
    isOption arg = true := by
  simp [isOption, harg]

theorem readLong?_name {o : OptionSpec} (ho : level.Finds o) (r : Reading) :
    level.readLong? r o.name.toList =
      if o.takesValue then some (.more { r with pending := some o })
      else (r.add? o "").map .more := by
  have htake : o.name.toList.takeWhile (· ≠ '=') = o.name.toList :=
    List.takeWhile_eq_self_iff.mpr ho.all_plain
  have hdrop : o.name.toList.dropWhile (· ≠ '=') = [] :=
    List.dropWhile_eq_nil_iff.mpr ho.all_plain
  simp only [readLong?, htake, hdrop, String.ofList_toList, ho.find?_eq]

theorem readLong?_attached {o : OptionSpec} (ho : level.Finds o) (r : Reading) (v : String) :
    level.readLong? r (o.name.toList ++ '=' :: v.toList) =
      if o.takesValue then (r.add? o v).map .more else none := by
  have hplain := ho.all_plain
  have htake : (o.name.toList ++ '=' :: v.toList).takeWhile (· ≠ '=') = o.name.toList := by
    rw [List.takeWhile_append_of_pos hplain, List.takeWhile_cons_of_neg (by simp), List.append_nil]
  have hdrop : (o.name.toList ++ '=' :: v.toList).dropWhile (· ≠ '=') = '=' :: v.toList := by
    rw [List.dropWhile_append_of_pos hplain, List.dropWhile_cons_of_neg (by simp)]
  simp only [readLong?, htake, hdrop, String.ofList_toList, ho.find?_eq]

/-- An option that is read was not taken for a value. -/
theorem pending_eq_none {text : List Char} (hl : r.literal = false)
    (harg : arg.toList = '-' :: '-' :: text) (h : level.read? r arg = some (.more s)) :
    r.pending = none := by
  by_contra hne
  obtain ⟨p, hp⟩ := Option.ne_none_iff_exists'.mp hne
  rw [read?_of_pending hp (isOption_long harg) hl] at h
  cases h

theorem toList_name (o : OptionSpec) :
    ("--" ++ o.name).toList = '-' :: '-' :: o.name.toList := by
  simp

theorem toList_attached (o : OptionSpec) (v : String) :
    ("--" ++ o.name ++ "=" ++ v).toList = '-' :: '-' :: (o.name.toList ++ '=' :: v.toList) := by
  simp

theorem read?_name {o : OptionSpec} (ho : level.Finds o) (hl : r.literal = false)
    (hp : r.pending = none) : level.read? r ("--" ++ o.name) =
      if o.takesValue then some (.more { r with pending := some o })
      else (r.add? o "").map .more := by
  rw [read?_long hl hp (toList_name o) ho.name_ne, readLong?_name ho]

theorem Reads.exists_add {o : OptionSpec} {flag : List String} (ho : level.Finds o)
    (hflag : Given o v flag) (hl : r.literal = false) (h : level.Reads r flag s) :
    r.add? o v = some s ∧ r.pending = none := by
  cases hflag with
  | bare htakes =>
    cases h with
    | cons hm h =>
      cases h
      have hp := pending_eq_none hl (toList_name o) hm
      rw [read?_name ho hl hp, if_neg (by simp [htakes]), map_more_eq_some] at hm
      exact ⟨hm, hp⟩
  | apart htakes =>
    cases h with
    | cons hm h =>
      have hp := pending_eq_none hl (toList_name o) hm
      rw [read?_name ho hl hp, if_pos htakes] at hm
      cases hm
      cases h with
      | cons hm h =>
        cases h
        simp only [Level.read?, hl, Bool.false_eq_true, if_false] at hm
        split at hm
        · cases hm
        · obtain ⟨haccepts, honce, rfl⟩ := add?_eq_some.mp (map_more_eq_some.mp hm)
          exact ⟨add?_eq_some.mpr ⟨haccepts, honce, by rw [hl]⟩, hp⟩
  | attached htakes =>
    cases h with
    | cons hm h =>
      cases h
      have hp := pending_eq_none hl (toList_attached o v) hm
      rw [read?_long hl hp (toList_attached o v) (by simp), readLong?_attached ho, if_pos htakes,
        map_more_eq_some] at hm
      exact ⟨hm, hp⟩

theorem literal_of_read?_dashes (hl : r.literal = false)
    (h : level.read? r "--" = some (.more s)) : s.literal = true := by
  cases hp : r.pending with
  | some o =>
    rw [read?_of_pending hp (by decide) hl] at h
    cases h
  | none =>
    simp only [Level.read?, hl, hp, isOption, readOption?, String.reduceToList] at h
    cases h
    rfl

theorem Reads.literal_eq (hd : level.Distinct) (hs : level.Sound r) (hl : r.literal = false)
    {args : List String} (hargs : "--" ∉ args) (h : level.Reads r args s) : s.literal = false := by
  induction h with
  | nil => exact hl
  | cons hread _ ih =>
    rw [List.mem_cons, not_or] at hargs
    have hmoves := moves_of_read? (fun o ho => (hs.pending o ho).2) hread
    exact ih (hs.moves hd hmoves) (literal_of_moves hmoves hl (Ne.symm hargs.1)) hargs.2

/-- An option given in front of `--` can be left out: the rest is read as before. -/
theorem Reads.leave_out (hd : level.Distinct) (hs : level.Sound r) (hl : r.literal = false)
    {o : OptionSpec} (ho : level.Finds o) {pre flag post : List String} (hpre : "--" ∉ pre)
    (hflag : Given o v flag) (h : level.Reads r (pre ++ (flag ++ post)) s') :
    ∃ s, level.Reads r (pre ++ post) s ∧ s.Extra o.name v s' := by
  obtain ⟨m, hm, h⟩ := reads_append.mp h
  obtain ⟨m', hadd, h⟩ := reads_append.mp h
  obtain ⟨hadd, hp⟩ := Reads.exists_add ho hflag (Reads.literal_eq hd hs hl hpre hm) hadd
  obtain ⟨-, -, rfl⟩ := add?_eq_some.mp hadd
  have hextra : m.Extra o.name v { m with options := (o.name, v) :: m.options, pending := none } :=
    ⟨rfl, hp.symm, rfl, [], m.options, rfl, rfl⟩
  obtain ⟨s, hreads, hs⟩ := Reads.of_extra hextra h
  exact ⟨s, reads_append.mpr ⟨m, hm, hreads⟩, hs⟩

/-- What was given without value or letter stands among the arguments in front of any `--`. -/
theorem Reads.exists_cut (hd : level.Distinct) (hs : level.Sound r) (hl : r.literal = false)
    {o : OptionSpec} (ho : o ∈ level.options) (hbare : o.takesValue = false)
    (hletter : o.letter = none) {args : List String} (hr : r.has o.name = false)
    (hs' : s.has o.name = true) (h : level.Reads r args s) :
    ∃ pre post, args = pre ++ ("--" ++ o.name) :: post ∧ ("--" ++ o.name) ∉ pre ∧
      "--" ∉ pre := by
  induction h with
  | nil => simp [hr] at hs'
  | @cons r m s arg args hread h ih =>
    by_cases harg : arg = "--" ++ o.name
    · exact ⟨[], args, by rw [harg]; rfl, by simp, by simp⟩
    · have hmoves := moves_of_read? (fun o ho => (hs.pending o ho).2) hread
      have hm := has_of_moves hd hs hmoves ho hbare hletter harg
      by_cases hdash : arg = "--"
      · have hoptions := h.options_eq (literal_of_read?_dashes hl (hdash ▸ hread))
        have hsame : s.has o.name = m.has o.name := by rw [has, has, value?, value?, hoptions]
        rw [hsame, hm, hr] at hs'
        cases hs'
      · obtain ⟨pre, post, rfl, hpre, hpre'⟩ := ih (hs.moves hd hmoves)
          (literal_of_moves hmoves hl hdash) (hm.trans hr) hs'
        exact ⟨arg :: pre, post, rfl, by simp [Ne.symm harg, hpre], by simp [Ne.symm hdash, hpre']⟩

end Level

end Wikitext.Command
