import Mathlib.Logic.Function.Basic

/-! # The command line

`cli.cpp`: the interface of a command, and how a command line is parsed with it.  The maps are
functions of the key, or lists where the code asks whether they are empty; `argv` without the
command's name is a list.  `std::stod` is a parameter.
-/

namespace RyFi.Cli

inductive ValueType where
  | invalid
  | string
  | unsignedInteger
  | signedInteger
  | floating
  | boolean
deriving DecidableEq

/-- The type, and the member that belongs to it. -/
inductive Value (F : Type) where
  | invalid
  | string (string : String)
  | uinteger (uinteger : UInt64)
  | sinteger (sinteger : Int64)
  | floating (floating : F)
  | boolean (boolean : Bool)
deriving DecidableEq

inductive Error where
  | runtimeError (what : String)
  /-- From `at`. -/
  | outOfRange
deriving DecidableEq

variable {F : Type}

def Value.type : Value F → ValueType
  | .invalid => .invalid
  | .string _ => .string
  | .uinteger _ => .unsignedInteger
  | .sinteger _ => .signedInteger
  | .floating _ => .floating
  | .boolean _ => .boolean

/-! ## Values as text -/

def isSpace (c : Char) : Bool := c = ' ' ∨ (9 ≤ c.toNat ∧ c.toNat ≤ 13)

/-- Whether there is a minus, and what is behind the sign. -/
def takeSign (str : String) : Bool × List Char :=
  match str.toList.dropWhile isSpace with
  | '-' :: rest => (true, rest)
  | '+' :: rest => (false, rest)
  | rest => (false, rest)

/-- The number at the start; text behind it is ignored. -/
def takeDigits (text : List Char) : Option Nat :=
  let digits := text.takeWhile Char.isDigit
  if digits = [] then none else some (digits.foldl (fun n c => 10 * n + (c.toNat - 48)) 0)

/-- `std::stoull`; a minus wraps around. -/
def stoull (str : String) : Option UInt64 := do
  let (negative, rest) := takeSign str
  let n ← takeDigits rest
  if n < UInt64.size then some (if negative then -UInt64.ofNat n else UInt64.ofNat n) else none

/-- `std::stoll` -/
def stoll (str : String) : Option Int64 := do
  let (negative, rest) := takeSign str
  let n ← takeDigits rest
  if negative then
    if n ≤ 9223372036854775808 then some (Int64.ofInt (-n)) else none
  else
    if n < 9223372036854775808 then some (Int64.ofNat n) else none

example : stoull "-1" = some 18446744073709551615 ∧ stoll " 12x" = some 12 ∧ stoll "x" = none := by
  decide +kernel

def trueStrings : List String := ["TRUE", "Y", "YES", "ON", "1"]
def falseStrings : List String := ["FALSE", "N", "NO", "OFF", "0"]

def upper (str : String) : String := String.ofList (str.toList.map Char.toUpper)

def isValidBoolean (str : String) : Bool :=
  trueStrings.contains (upper str) || falseStrings.contains (upper str)

/-- The constructor that parses. -/
def Value.ofString (stod : String → Option F) (type : ValueType) (str : String) :
    Except Error (Value F) :=
  match type with
  | .string => .ok (.string str)
  | .unsignedInteger =>
    match stoull str with
    | some n => .ok (.uinteger n)
    | none => .error (.runtimeError "Expected an unsigned integer value")
  | .signedInteger =>
    match stoll str with
    | some n => .ok (.sinteger n)
    | none => .error (.runtimeError "Expected a signed integer value")
  | .floating =>
    match stod str with
    | some x => .ok (.floating x)
    | none => .error (.runtimeError "Expected a floating point value")
  | .boolean =>
    if trueStrings.contains (upper str) then .ok (.boolean true)
    else if falseStrings.contains (upper str) then .ok (.boolean false)
    else .error (.runtimeError "Expected a boolean value")
  | .invalid => .error (.runtimeError "Unsupported type")

/-! ## Interfaces and commands -/

structure Interface (F : Type) where
  aliases : Char → Option String
  /-- The defaults of the arguments. -/
  arguments : String → Option (Value F)
  subcommands : List (String × Interface F)

namespace Interface

def empty : Interface F := ⟨fun _ => none, fun _ => none, []⟩

/-- `arg`; the character 0 is no alias. -/
def arg (interface : Interface F) (name : String) (aliasChar : Char) (defValue : Value F) :
    Except Error (Interface F) :=
  if (interface.arguments name).isSome then
    .error (.runtimeError "An argument with the given name already exists")
  else
    let arguments := Function.update interface.arguments name (some defValue)
    if aliasChar.toNat = 0 then .ok { interface with arguments := arguments }
    else if (interface.aliases aliasChar).isSome then
      .error (.runtimeError "An argument with the given alias already exists")
    else .ok { interface with
      aliases := Function.update interface.aliases aliasChar (some name)
      arguments := arguments }

def subcmd (interface : Interface F) (name : String) (sub : Interface F) :
    Except Error (Interface F) :=
  if (interface.subcommands.lookup name).isSome then
    .error (.runtimeError "A subcommand with the given name already exists")
  else .ok { interface with subcommands := interface.subcommands ++ [(name, sub)] }

end Interface

structure Command (F : Type) where
  command : String
  arguments : String → Option (Value F)
  values : List String
  subcommand : Option (Command F)

namespace Command

/-- The constructor: every argument has its default. -/
def create (command : String) (interface : Interface F) : Command F :=
  ⟨command, interface.arguments, [], none⟩

def set (cmd : Command F) (name : String) (value : Value F) : Command F :=
  { cmd with arguments := Function.update cmd.arguments name (some value) }

/-- `operator[]` -/
def get (cmd : Command F) (arg : String) : Except Error (Value F) :=
  match cmd.arguments arg with
  | some value => .ok value
  | none => .error .outOfRange

end Command

/-! ## Parsing -/

section

variable (stod : String → Option F)

/-- The command, and the arguments that are left. -/
def parseArgument (cmd : Command F) (argName : String) (type : ValueType) (argv : List String) :
    Except Error (Command F × List String) :=
  -- a boolean does not need a value
  if type = .boolean ∧ ¬argv.head?.any isValidBoolean then
    .ok (cmd.set argName (.boolean true), argv)
  else
    match argv with
    | [] => .error (.runtimeError "Expected a value")
    | value :: argv =>
      match Value.ofString stod type value with
      | .ok value => .ok (cmd.set argName value, argv)
      | .error e => .error e

/-- The loop over the aliases of a compound argument. -/
def parseAliases (interface : Interface F) (cmd : Command F) :
    List Char → List String → Except Error (Command F × List String)
  | [], argv => .ok (cmd, argv)
  | c :: rest, argv =>
    match interface.aliases c with
    | none => .error (.runtimeError "Unknown argument")
    | some argName =>
      match interface.arguments argName with
      | none => .error .outOfRange
      | some defValue =>
        if rest ≠ [] then
          -- only the last alias may take a value
          if defValue.type = .boolean then
            parseAliases interface (cmd.set argName (.boolean true)) rest argv
          else
            .error (.runtimeError
              "Non boolean argumentcan only be at the end of a compound argument")
        else parseArgument stod cmd argName defValue.type argv

variable {stod}

theorem parseArgument_length {cmd cmd' : Command F} {argName : String} {type : ValueType}
    {argv argv' : List String}
    (h : parseArgument stod cmd argName type argv = .ok (cmd', argv')) :
    argv'.length ≤ argv.length := by
  simp only [parseArgument] at h
  split at h
  · cases h
    exact Nat.le_refl _
  · split at h
    · cases h
    · split at h
      · cases h
        exact Nat.le_succ _
      · cases h

theorem parseAliases_length {interface : Interface F} {cmd cmd' : Command F} {text : List Char}
    {argv argv' : List String}
    (h : parseAliases stod interface cmd text argv = .ok (cmd', argv')) :
    argv'.length ≤ argv.length := by
  induction text generalizing cmd with
  | nil =>
    cases h
    exact Nat.le_refl _
  | cons c rest ih =>
    simp only [parseAliases] at h
    split at h
    · cases h
    · split at h
      · cases h
      · split at h
        · split at h
          · exact ih h
          · cases h
        · exact parseArgument_length h

variable (stod)

/-- The loop of `parse`; `parse` of a sub-command starts with its name as the command's. -/
def parseLoop (interface : Interface F) (cmd : Command F) : List String →
    Except Error (Command F)
  | [] => .ok cmd
  | arg :: argv =>
    match arg.toList with
    | '-' :: '-' :: name =>
      match interface.arguments (String.ofList name) with
      | none => .error (.runtimeError "Unknown argument")
      | some defValue =>
        match _h : parseArgument stod cmd (String.ofList name) defValue.type argv with
        | .ok (cmd, argv) => parseLoop interface cmd argv
        | .error e => .error e
    | '-' :: text =>
      match _h : parseAliases stod interface cmd text argv with
      | .ok (cmd, argv) => parseLoop interface cmd argv
      | .error e => .error e
    | _ =>
      -- with sub-commands there are no values
      if interface.subcommands ≠ [] then
        match interface.subcommands.lookup arg with
        | none => .error (.runtimeError "Unknown sub-command")
        | some sub =>
          match parseLoop sub (.create arg sub) argv with
          | .ok sub => .ok { cmd with subcommand := some sub }
          | .error e => .error e
      else parseLoop interface { cmd with values := cmd.values ++ [arg] } argv
termination_by argv => argv.length
decreasing_by
  · exact Nat.lt_succ_of_le (parseArgument_length ‹_›)
  · exact Nat.lt_succ_of_le (parseAliases_length ‹_›)
  · exact Nat.lt_succ_self _
  · exact Nat.lt_succ_self _

/-- `parse`, of the command's name and what follows it. -/
def parse (interface : Interface F) (cmdName : String) (argv : List String) :
    Except Error (Command F) :=
  parseLoop stod interface (.create cmdName interface) argv

end

end RyFi.Cli
