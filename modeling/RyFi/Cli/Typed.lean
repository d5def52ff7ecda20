import RyFi.Cli.Parse

/-! # What a parsed command holds

A command that `parse` returns has a value for each argument of its interface, of the type of
the default, so that reading it as that type does not throw; and so has its sub-command.
`at` never throws for an interface that `arg` and `subcmd` have built.
-/

namespace RyFi.Cli

variable {F : Type} {stod : String → Option F}

/-! ## Interfaces -/

/-- Every alias is that of an argument. -/
inductive Interface.Proper : Interface F → Prop where
  | intro {interface : Interface F}
      (aliases : ∀ c name, interface.aliases c = some name → (interface.arguments name).isSome)
      (subcommands : ∀ name sub, (name, sub) ∈ interface.subcommands → Proper sub) :
      Proper interface

namespace Interface

variable {interface interface' : Interface F}

theorem proper_empty : (empty : Interface F).Proper :=
  .intro (fun _ _ h => by cases h) (fun _ _ h => by cases h)

theorem Proper.aliases (h : interface.Proper) {c : Char} {name : String}
    (hc : interface.aliases c = some name) : ∃ value, interface.arguments name = some value := by
  obtain ⟨haliases, -⟩ := h
  exact Option.isSome_iff_exists.mp (haliases c name hc)

theorem Proper.sub (h : interface.Proper) {name : String} {sub : Interface F}
    (hsub : interface.subcommands.lookup name = some sub) : sub.Proper := by
  obtain ⟨-, hsubcommands⟩ := h
  obtain ⟨l₁, l₂, hl, -⟩ := List.lookup_eq_some_iff.mp hsub
  exact hsubcommands name sub (by simp [hl])

theorem Proper.arg (h : interface.Proper) {name : String} {aliasChar : Char} {defValue : Value F}
    (harg : interface.arg name aliasChar defValue = .ok interface') : interface'.Proper := by
  obtain ⟨haliases, hsubcommands⟩ := h
  have hkept : ∀ other, (interface.arguments other).isSome →
      (Function.update interface.arguments name (some defValue) other).isSome := by
    intro other hother
    by_cases heq : other = name
    · rw [heq, Function.update_self]
      rfl
    · rwa [Function.update_of_ne heq]
  simp only [Interface.arg] at harg
  split at harg
  · cases harg
  · split at harg
    · cases harg
      exact .intro (fun c other hc => hkept other (haliases c other hc)) hsubcommands
    · split at harg
      · cases harg
      · cases harg
        refine .intro (fun c other hc => ?_) hsubcommands
        by_cases heq : c = aliasChar
        · -- the new alias is that of the new argument
          simp only [heq, Function.update_self, Option.some.injEq] at hc
          simp [← hc]
        · simp only [Function.update_of_ne heq] at hc
          exact hkept other (haliases c other hc)

theorem Proper.subcmd (h : interface.Proper) {name : String} {sub : Interface F}
    (hsub : sub.Proper) (hsubcmd : interface.subcmd name sub = .ok interface') :
    interface'.Proper := by
  obtain ⟨haliases, hsubcommands⟩ := h
  simp only [Interface.subcmd] at hsubcmd
  split at hsubcmd
  · cases hsubcmd
  · cases hsubcmd
    refine .intro haliases fun other sub' hmem => ?_
    rcases List.mem_append.mp hmem with hold | hnew
    · exact hsubcommands other sub' hold
    · cases List.mem_singleton.mp hnew
      exact hsub

/-- What the calls of `arg` and `subcmd` that return make of an empty interface. -/
inductive Built : Interface F → Prop where
  | empty : Built .empty
  | arg {interface interface' : Interface F} {name : String} {aliasChar : Char}
      {defValue : Value F} (built : Built interface)
      (returns : interface.arg name aliasChar defValue = .ok interface') : Built interface'
  | subcmd {interface sub interface' : Interface F} {name : String} (built : Built interface)
      (sub_built : Built sub) (returns : interface.subcmd name sub = .ok interface') :
      Built interface'

theorem Built.proper (h : interface.Built) : interface.Proper := by
  induction h with
  | empty => exact proper_empty
  | arg _ returns ih => exact ih.arg returns
  | subcmd _ _ returns ih ih_sub => exact ih.subcmd ih_sub returns

theorem Built.args (h : interface.Built) {args : List (String × Char × Value F)}
    (hargs : args.foldlM (fun interface arg => interface.arg arg.1 arg.2.1 arg.2.2) interface =
      .ok interface') : interface'.Built := by
  induction args generalizing interface with
  | nil =>
    cases hargs
    exact h
  | cons arg args ih =>
    rw [List.foldlM_cons] at hargs
    cases harg : interface.arg arg.1 arg.2.1 arg.2.2 with
    | error e =>
      rw [harg] at hargs
      cases hargs
    | ok next =>
      rw [harg] at hargs
      exact ih (.arg h harg) hargs

end Interface

/-! ## Commands -/

/-- A value of the right type for every argument, and for no other. -/
def Typed (interface : Interface F) (cmd : Command F) : Prop :=
  ∀ name, (cmd.arguments name).map Value.type = (interface.arguments name).map Value.type

/-- What is parsed with an interface: values, or a sub-command that is parsed with its own. -/
inductive Matches : Interface F → Command F → Prop where
  | values {interface : Interface F} {cmd : Command F} (typed : Typed interface cmd)
      (no_subcommand : cmd.subcommand = none)
      (no_values : interface.subcommands ≠ [] → cmd.values = []) : Matches interface cmd
  | subcommand {interface subInterface : Interface F} {cmd sub : Command F}
      (typed : Typed interface cmd) (subcommand : cmd.subcommand = some sub)
      (no_values : cmd.values = [])
      (lookup : interface.subcommands.lookup sub.command = some subInterface)
      (sub_matches : Matches subInterface sub) : Matches interface cmd

section

variable {interface : Interface F} {cmd cmd' : Command F} {argv argv' : List String}

theorem Matches.typed (h : Matches interface cmd) : Typed interface cmd := by
  cases h with
  | values typed _ _ => exact typed
  | subcommand typed _ _ _ _ => exact typed

/-- Reading an argument does not throw, and gives what it was declared with. -/
theorem Typed.get (h : Typed interface cmd) {name : String} {defValue : Value F}
    (hname : interface.arguments name = some defValue) :
    ∃ value, cmd.get name = .ok value ∧ value.type = defValue.type := by
  have htype := h name
  rw [hname, Option.map_some] at htype
  obtain ⟨value, hvalue, htype⟩ := Option.map_eq_some_iff.mp htype
  exact ⟨value, by rw [Command.get, hvalue], htype⟩

/-- The command while its arguments are parsed. -/
structure Underway (interface : Interface F) (name : String) (cmd : Command F) : Prop where
  typed : Typed interface cmd
  command_eq : cmd.command = name
  no_subcommand : cmd.subcommand = none
  no_values : interface.subcommands ≠ [] → cmd.values = []

variable {name : String}

theorem underway_create (interface : Interface F) (name : String) :
    Underway interface name (.create name interface) :=
  ⟨fun _ => rfl, rfl, rfl, fun _ => rfl⟩

theorem Underway.set (h : Underway interface name cmd) {argName : String} {defValue value : Value F}
    (hdef : interface.arguments argName = some defValue) (htype : value.type = defValue.type) :
    Underway interface name (cmd.set argName value) := by
  refine ⟨fun other => ?_, h.command_eq, h.no_subcommand, h.no_values⟩
  rw [Command.set]
  by_cases heq : other = argName
  · rw [heq, hdef]
    simp [htype]
  · simpa [Function.update_of_ne heq] using h.typed other

theorem ofString_type {type : ValueType} {str : String} {value : Value F}
    (h : Value.ofString stod type str = .ok value) : value.type = type := by
  cases type with
  | string =>
    cases h
    rfl
  | invalid => cases h
  | boolean =>
    simp only [Value.ofString] at h
    split at h
    · cases h
      rfl
    · split at h
      · cases h
        rfl
      · cases h
  | _ =>
    simp only [Value.ofString] at h
    split at h
    · cases h
      rfl
    · cases h

theorem ofString_not_outOfRange (type : ValueType) (str : String) :
    Value.ofString stod type str ≠ .error .outOfRange := by
  cases type <;> simp only [Value.ofString] <;> repeat' split
  all_goals simp

theorem Underway.parseArgument (h : Underway interface name cmd) {argName : String}
    {defValue : Value F} (hdef : interface.arguments argName = some defValue)
    (hparse : parseArgument stod cmd argName defValue.type argv = .ok (cmd', argv')) :
    Underway interface name cmd' := by
  simp only [Cli.parseArgument] at hparse
  split at hparse
  next hboolean =>
    cases hparse
    exact h.set hdef hboolean.1.symm
  next =>
    split at hparse
    · cases hparse
    · split at hparse
      next value hvalue =>
        cases hparse
        exact h.set hdef (ofString_type hvalue)
      next => cases hparse

theorem parseArgument_not_outOfRange (argName : String) (type : ValueType) :
    parseArgument stod cmd argName type argv ≠ .error .outOfRange := by
  intro hparse
  simp only [parseArgument] at hparse
  split at hparse
  · cases hparse
  · split at hparse
    · cases hparse
    · split at hparse
      · cases hparse
      next e he =>
        cases hparse
        exact ofString_not_outOfRange _ _ he

theorem Underway.parseAliases (h : Underway interface name cmd) {text : List Char}
    (hparse : parseAliases stod interface cmd text argv = .ok (cmd', argv')) :
    Underway interface name cmd' := by
  induction text generalizing cmd with
  | nil =>
    cases hparse
    exact h
  | cons c rest ih =>
    simp only [Cli.parseAliases] at hparse
    split at hparse
    · cases hparse
    · split at hparse
      · cases hparse
      next defValue hdef =>
        split at hparse
        · split at hparse
          next hboolean =>
            have htype : (Value.boolean true : Value F).type = defValue.type := hboolean.symm
            exact ih (h.set hdef htype) hparse
          next => cases hparse
        · exact h.parseArgument hdef hparse

theorem parseAliases_not_outOfRange (hproper : interface.Proper) (text : List Char) :
    parseAliases stod interface cmd text argv ≠ .error .outOfRange := by
  intro hparse
  induction text generalizing cmd with
  | nil => cases hparse
  | cons c rest ih =>
    simp only [parseAliases] at hparse
    split at hparse
    · cases hparse
    next argName halias =>
      split at hparse
      next hnone =>
        -- `at` finds what the alias stands for
        obtain ⟨value, hvalue⟩ := hproper.aliases halias
        rw [hvalue] at hnone
        cases hnone
      next =>
        split at hparse
        · split at hparse
          · exact ih hparse
          · cases hparse
        · exact parseArgument_not_outOfRange _ _ hparse

/-- A command of this name that matches, or an error that is not from `at`. -/
def Admitted (interface : Interface F) (name : String) : Except Error (Command F) → Prop
  | .ok cmd => Matches interface cmd ∧ cmd.command = name
  | .error e => e ≠ .outOfRange

theorem admitted_runtimeError (what : String) :
    Admitted interface name (.error (.runtimeError what)) := by
  rintro ⟨⟩

theorem parseLoop_admitted (h : Underway interface name cmd) (hproper : interface.Proper) :
    Admitted interface name (parseLoop stod interface cmd argv) := by
  fun_induction parseLoop stod interface cmd argv generalizing name with
  | case1 => exact ⟨.values h.typed h.no_subcommand h.no_values, h.command_eq⟩
  | case2 => exact admitted_runtimeError _
  | case3 interface cmd arg argv argName _ defValue hdef cmd' argv' hparse ih =>
    exact ih (h.parseArgument hdef hparse) hproper
  | case4 interface cmd arg argv argName _ defValue hdef e hparse =>
    rintro rfl
    exact parseArgument_not_outOfRange _ _ hparse
  | case5 interface cmd arg argv text _ _ cmd' argv' hparse ih =>
    exact ih (h.parseAliases hparse) hproper
  | case6 interface cmd arg argv text _ _ e hparse =>
    rintro rfl
    exact parseAliases_not_outOfRange hproper _ hparse
  | case7 => exact admitted_runtimeError _
  | case8 interface cmd arg argv hsubcommands sub hsub cmd' hparse _ _ ih =>
    have hmatches := ih (underway_create sub arg) (hproper.sub hsub)
    rw [hparse] at hmatches
    obtain ⟨hmatches, hname⟩ := hmatches
    refine ⟨.subcommand h.typed rfl (h.no_values hsubcommands) ?_ hmatches, h.command_eq⟩
    rw [hname]
    exact hsub
  | case9 interface cmd arg argv hsubcommands sub hsub e hparse _ _ ih =>
    have herror := ih (underway_create sub arg) (hproper.sub hsub)
    rwa [hparse] at herror
  | case10 interface cmd arg argv hsubcommands _ _ ih =>
    exact ih ⟨h.typed, h.command_eq, h.no_subcommand, fun hne => absurd hne hsubcommands⟩ hproper

end

/-- Whatever the command line, `parse` with an interface that `arg` and `subcmd` have built never
    fails in `at`, and what it returns matches the interface: every argument reads as its
    declared type, in the command and in each sub-command. -/
theorem parse_matches (stod : String → Option F) {interface : Interface F}
    (hbuilt : interface.Built) (cmdName : String) (argv : List String) :
    parse stod interface cmdName argv ≠ .error .outOfRange ∧
      ∀ cmd, parse stod interface cmdName argv = .ok cmd → Matches interface cmd ∧
        ∀ name defValue, interface.arguments name = some defValue →
          ∃ value, cmd.get name = .ok value ∧ value.type = defValue.type := by
  have hadmitted : Admitted interface cmdName
      (parseLoop stod interface (.create cmdName interface) argv) :=
    parseLoop_admitted (underway_create interface cmdName) hbuilt.proper
  refine ⟨fun herror => ?_, fun cmd hcmd => ?_⟩
  · rw [parse] at herror
    rw [herror] at hadmitted
    exact hadmitted rfl
  · rw [parse] at hcmd
    rw [hcmd] at hadmitted
    exact ⟨hadmitted.1, fun name defValue hname => hadmitted.1.typed.get hname⟩

/-! ## The interface of the program -/

section

variable [NatCast F]

/-- The arguments that `main` declares. -/
def mainArguments : List (String × Char × Value F) :=
  [("tun", 'd', .string "ryfi0"),
    ("config", 'c', .string ""),
    ("list", 'l', .boolean false),
    ("drivers", Char.ofNat 0, .boolean false),
    ("rxdev", 'i', .string ""),
    ("txdev", 'o', .string ""),
    ("rxfreq", 'r', .floating (435000000 : Nat)),
    ("txfreq", 't', .floating (2315000000 : Nat)),
    ("baudrate", 'b', .floating (720000 : Nat)),
    ("udpdump", 'u', .boolean false),
    ("udphost", 'a', .string "localhost"),
    ("udpport", 'p', .sinteger 1234),
    ("genconfig", Char.ofNat 0, .string "")]

def mainInterface : Except Error (Interface F) :=
  mainArguments.foldlM (fun interface arg => interface.arg arg.1 arg.2.1 arg.2.2) .empty

theorem built_mainInterface {interface : Interface F} (h : mainInterface = .ok interface) :
    interface.Built :=
  Interface.Built.empty.args h

end

/-- A list of devices, and another baud rate. -/
def sampleArgv : List String := ["-l", "--baudrate", "9600"]

/-- Whole numbers only. -/
def sampleStod (str : String) : Option Nat := takeDigits str.toList

theorem parse_matches_sampleArgv : ∃ (interface : Interface Nat) (cmd : Command Nat)
    (value : Value Nat), mainInterface = .ok interface ∧
      parse sampleStod interface "ryfi" sampleArgv = .ok cmd ∧
      cmd.get "baudrate" = .ok value ∧ value.type = .floating := by
  have hparsed : ((mainInterface : Except Error (Interface Nat)).toOption.bind fun interface =>
      (parse sampleStod interface "ryfi" sampleArgv).toOption.bind fun _ =>
        interface.arguments "baudrate") = some (.floating 720000) := by
    decide +kernel
  obtain ⟨interface, hinterface, hparsed⟩ := Option.bind_eq_some_iff.mp hparsed
  obtain ⟨cmd, hcmd, hdefault⟩ := Option.bind_eq_some_iff.mp hparsed
  have hok {α : Type} {r : Except Error α} {a : α} (hr : r.toOption = some a) : r = .ok a := by
    cases r with
    | ok b => rw [Option.some.inj hr]
    | error e => cases hr
  obtain ⟨-, hmatches⟩ := parse_matches sampleStod (built_mainInterface (hok hinterface)) "ryfi"
    sampleArgv
  obtain ⟨value, hget, htype⟩ := (hmatches cmd (hok hcmd)).2 "baudrate" _ hdefault
  exact ⟨interface, cmd, value, hok hinterface, hok hcmd, hget, htype⟩

end RyFi.Cli
