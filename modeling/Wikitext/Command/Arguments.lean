/-!
The arguments of the command line. Options stand anywhere before or after the name of the command;
those that belong to all commands may stand on either side of it, and the later side wins. After
`--` everything is an operand. What is not understood in full is refused.
-/

namespace Wikitext.Command

structure OptionSpec where
  name : String
  letter : Option Char
  takesValue : Bool
  repeats : Bool
  accepts : String → Bool

namespace OptionSpec

def flag (name : String) (letter : Option Char) : OptionSpec :=
  ⟨name, letter, false, false, fun _ => true⟩

def value (name : String) (letter : Option Char) : OptionSpec :=
  ⟨name, letter, true, false, fun _ => true⟩

def list (name : String) : OptionSpec :=
  ⟨name, none, true, true, fun _ => true⟩

def path : OptionSpec :=
  ⟨"path", some 'p', true, false, (· ≠ "")⟩

def format : OptionSpec :=
  ⟨"format", none, true, false, fun v => v = "text" || v = "json"⟩

def shared : List OptionSpec :=
  [path, flag "verbose" (some 'v'), flag "no-color" none, value "locale" (some 'l'),
    list "namespace", list "alt-param"]

end OptionSpec

/-- The arguments read so far, the latest first. -/
structure Reading where
  options : List (String × String)
  operands : List String
  pending : Option OptionSpec
  /-- Whether `--` was read. -/
  literal : Bool

namespace Reading

def empty : Reading := ⟨[], [], none, false⟩

def add? (r : Reading) (o : OptionSpec) (v : String) : Option Reading :=
  if !o.accepts v || (!o.repeats && (r.options.lookup o.name).isSome) then none
  else some { r with options := (o.name, v) :: r.options, pending := none }

def addOperand? (r : Reading) (most : Nat) (v : String) : Option Reading :=
  if v = "" || most ≤ r.operands.length then none
  else some { r with operands := v :: r.operands }

def values (r : Reading) (name : String) : List String :=
  (r.options.reverse.filter (·.1 = name)).map (·.2)

def value? (r : Reading) (name : String) : Option String :=
  r.options.lookup name

def has (r : Reading) (name : String) : Bool :=
  (r.value? name).isSome

end Reading

inductive Outcome where
  | more (r : Reading)
  | version
  | help (full : Bool)

/-- What may be given on one side of the command's name. -/
structure Level where
  options : List OptionSpec
  operands : Nat
  hasVersion : Bool

/-- An argument that begins with two hyphens; `text` is what follows them. -/
def Level.readLong? (level : Level) (r : Reading) (text : List Char) : Option Outcome :=
  let name := String.ofList (text.takeWhile (· ≠ '='))
  let attached := match text.dropWhile (· ≠ '=') with
    | [] => none
    | _ :: v => some (String.ofList v)
  match level.options.find? (·.name = name), attached with
  | some o, some v => if o.takesValue then (r.add? o v).map .more else none
  | some o, none =>
    if o.takesValue then some (.more { r with pending := some o }) else (r.add? o "").map .more
  | none, some _ => none
  | none, none =>
    if name = "help" then some (.help true)
    else if name = "version" && level.hasVersion then some .version
    else none

def Level.readLetters? (level : Level) (r : Reading) : List Char → Option Outcome
  | [] => some (.more r)
  | c :: cs =>
    match level.options.find? (·.letter = some c) with
    | some o =>
      if o.takesValue then
        match cs with
        | [] => some (.more { r with pending := some o })
        | '=' :: v => (r.add? o (String.ofList v)).map .more
        | v => (r.add? o (String.ofList v)).map .more
      else
        match r.add? o "" with
        | some r' => level.readLetters? r' cs
        | none => none
    | none =>
      if c = 'h' then some (.help false)
      else if c = 'V' && level.hasVersion then some .version
      else none

def isOption (arg : String) : Bool :=
  match arg.toList with
  | '-' :: _ :: _ => true
  | _ => false

def Level.readOption? (level : Level) (r : Reading) (arg : String) : Option Outcome :=
  match arg.toList with
  | ['-', '-'] => some (.more { r with literal := true })
  | '-' :: '-' :: text => level.readLong? r text
  | '-' :: letters => level.readLetters? r letters
  | _ => none

def Level.read? (level : Level) (r : Reading) (arg : String) : Option Outcome :=
  if r.literal then (r.addOperand? level.operands arg).map .more
  else
    match r.pending with
    | some o => if isOption arg then none else (r.add? o arg).map .more
    | none =>
      if isOption arg then level.readOption? r arg
      else (r.addOperand? level.operands arg).map .more

def Level.readAll? (level : Level) (r : Reading) : List String → Option Outcome
  | [] => if r.pending.isSome then none else some (.more r)
  | arg :: args =>
    match level.read? r arg with
    | some (.more r') => level.readAll? r' args
    | other => other

inductive Format where
  | text
  | json
  deriving DecidableEq, Repr

structure EditOptions where
  write : Bool
  diff : Bool
  deriving DecidableEq, Repr

inductive Action where
  | init
  | missingAlt (file : String) (format : Format)
  | insertImage (file markup : String) (edit : EditOptions)
  | insertAlt (file markup caption alt : String) (edit : EditOptions)
  | links (file : String) (format : Format)
  | boundary (file : String) (format : Format)
  | locate (file target before after : String)
  | caption (file markup : String)
  deriving DecidableEq, Repr

structure Shared where
  path : Option String
  verbose : Bool
  noColor : Bool
  locale : Option String
  namespaces : List String
  altParams : List String
  deriving DecidableEq, Repr

/-- What help is asked for: on one command or on all, in full or in short. -/
structure Topic where
  command : Option String
  full : Bool
  deriving DecidableEq, Repr

inductive Request where
  | version
  | help (topic : Topic)
  | run (shared : Shared) (action : Option Action)
  deriving DecidableEq, Repr

namespace Shared

def ofReadings (before after : Reading) : Shared :=
  let lists (name : String) : List String :=
    if after.values name = [] then before.values name else after.values name
  ⟨after.value? "path" <|> before.value? "path", after.has "verbose" || before.has "verbose",
    after.has "no-color" || before.has "no-color",
    after.value? "locale" <|> before.value? "locale", lists "namespace", lists "alt-param"⟩

end Shared

namespace Action

def spec? : String → Option (List OptionSpec × Nat)
  | "init" => some ([], 0)
  | "missing-alt" => some ([.format], 1)
  | "insert-image" => some ([.value "markup" none, .flag "write" none, .flag "diff" none], 1)
  | "insert-alt" =>
    some ([.value "markup" none, .value "caption" none, .value "alt" none, .flag "write" none,
      .flag "diff" none], 1)
  | "links" => some ([.format], 1)
  | "boundary" => some ([.format], 1)
  | "locate" =>
    some ([.value "target" none, .value "before" none, .value "after" none], 1)
  | "caption" => some ([.value "markup" none], 1)
  | _ => none

def format (r : Reading) : Format :=
  if r.value? "format" = some "json" then .json else .text

def edit (r : Reading) : EditOptions :=
  ⟨r.has "write", r.has "diff"⟩

def ofReading? (name : String) (r : Reading) : Option Action := do
  match name with
  | "init" => return .init
  | "missing-alt" => return .missingAlt (← r.operands.head?) (format r)
  | "insert-image" => return .insertImage (← r.operands.head?) (← r.value? "markup") (edit r)
  | "insert-alt" =>
    return .insertAlt (← r.operands.head?) (← r.value? "markup") (← r.value? "caption")
      (← r.value? "alt") (edit r)
  | "links" => return .links (← r.operands.head?) (format r)
  | "boundary" => return .boundary (← r.operands.head?) (format r)
  | "locate" =>
    return .locate (← r.operands.head?) (← r.value? "target") ((r.value? "before").getD "")
      ((r.value? "after").getD "")
  | "caption" => return .caption (← r.operands.head?) (← r.value? "markup")
  | _ => none

end Action

namespace Request

/-- `help` takes the name of a command, which may be its own. -/
def ofHelp? : List String → Option Request
  | [] => some (.help ⟨none, true⟩)
  | [name] =>
    if name = "help" || (Action.spec? name).isSome then some (.help ⟨some name, true⟩) else none
  | _ => none

def ofCommand? (before : Reading) (name : String) (args : List String) : Option Request :=
  if name = "help" then ofHelp? args
  else
    match Action.spec? name with
    | none => none
    | some (options, operands) =>
      match (Level.mk (OptionSpec.shared ++ options) operands false).readAll? .empty args with
      | none => none
      | some .version => some .version
      | some (.help full) => some (.help ⟨some name, full⟩)
      | some (.more r) =>
        (Action.ofReading? name r).map fun a => .run (.ofReadings before r) (some a)

def ofArgumentsFrom? (r : Reading) : List String → Option Request
  | [] => if r.pending.isSome then none else some (.run (.ofReadings r .empty) none)
  | arg :: args =>
    if r.pending.isNone && !r.literal && !isOption arg then ofCommand? r arg args
    else
      match (Level.mk OptionSpec.shared 0 true).read? r arg with
      | none => none
      | some .version => some .version
      | some (.help full) => some (.help ⟨none, full⟩)
      | some (.more r') => ofArgumentsFrom? r' args

def ofArguments? (args : List String) : Option Request :=
  ofArgumentsFrom? .empty args

end Request

end Wikitext.Command
