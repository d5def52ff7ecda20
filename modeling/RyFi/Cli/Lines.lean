import RyFi.Cli.Typed

/-! # Command lines

A command line written out plainly: every argument by its long name with a value, and behind
them either values or a sub-command.  What it means is said without a parser; `parse` reads it
so, and whatever `parse` accepts, with aliases, compound arguments and booleans without a value,
is a shorthand for such a line.
-/

namespace RyFi.Cli

variable {F : Type}

inductive Line where
  | values (settings : List (String × String)) (values : List String)
  | subcommand (settings : List (String × String)) (name : String) (line : Line)

/-- Not an argument. -/
def plain (text : String) : Bool := text.toList.head? ≠ some '-'

namespace Line

def writeSetting (setting : String × String) : List String :=
  [String.ofList ('-' :: '-' :: setting.1.toList), setting.2]

def write : Line → List String
  | .values settings texts => settings.flatMap writeSetting ++ texts
  | .subcommand settings name line => settings.flatMap writeSetting ++ name :: line.write

section

variable (stod : String → Option F)

/-- An argument of the interface is set to what a text says. -/
def assign (interface : Interface F) (cmd : Command F) (setting : String × String) :
    Option (Command F) := do
  let defValue ← interface.arguments setting.1
  let value ← (Value.ofString stod defValue.type setting.2).toOption
  return cmd.set setting.1 value

def assignAll (interface : Interface F) (cmd : Command F) (settings : List (String × String)) :
    Option (Command F) :=
  settings.foldlM (assign stod interface) cmd

def meaning (interface : Interface F) (cmdName : String) : Line → Option (Command F)
  | .values settings texts =>
    if (interface.subcommands ≠ [] → texts = []) ∧ texts.all plain then
      (assignAll stod interface (.create cmdName interface) settings).map fun cmd =>
        { cmd with values := texts }
    else none
  | .subcommand settings name line => do
    let sub ← interface.subcommands.lookup name
    let cmd ← assignAll stod interface (.create cmdName interface) settings
    let subcommand ← line.meaning sub name
    if plain name then return { cmd with subcommand := some subcommand } else none

end

end Line

section

open Line

variable {stod : String → Option F} {interface : Interface F} {cmd cmd' : Command F}
  {argv argv' : List String}

/-! ## Settings -/

theorem assign_eq_some {setting : String × String} :
    assign stod interface cmd setting = some cmd' ↔ ∃ defValue value,
      interface.arguments setting.1 = some defValue ∧
        Value.ofString stod defValue.type setting.2 = .ok value ∧ cmd.set setting.1 value = cmd' := by
  simp only [assign, Option.bind_eq_bind, Option.bind_eq_some_iff, Option.pure_def,
    Option.some.injEq]
  constructor
  · rintro ⟨defValue, hdef, value, hvalue, rfl⟩
    refine ⟨defValue, value, hdef, ?_, rfl⟩
    cases hof : Value.ofString stod defValue.type setting.2 with
    | ok other =>
      rw [hof] at hvalue
      rw [Option.some.inj hvalue]
    | error e =>
      rw [hof] at hvalue
      cases hvalue
  · rintro ⟨defValue, value, hdef, hvalue, rfl⟩
    exact ⟨defValue, hdef, value, by rw [hvalue]; rfl, rfl⟩

theorem assignAll_nil : assignAll stod interface cmd [] = some cmd := rfl

theorem assignAll_cons {setting : String × String} {settings : List (String × String)} :
    assignAll stod interface cmd (setting :: settings) = some cmd' ↔
      ∃ next, assign stod interface cmd setting = some next ∧
        assignAll stod interface next settings = some cmd' := by
  rw [assignAll, List.foldlM_cons, Option.bind_eq_bind, Option.bind_eq_some_iff]
  rfl

theorem assignAll_append {settings more : List (String × String)} {cmd'' : Command F}
    (h : assignAll stod interface cmd settings = some cmd')
    (hmore : assignAll stod interface cmd' more = some cmd'') :
    assignAll stod interface cmd (settings ++ more) = some cmd'' := by
  rw [assignAll, List.foldlM_append]
  rw [assignAll] at h
  rw [h]
  exact hmore

/-- Settings and values do not interfere. -/
theorem assignAll_values {settings : List (String × String)}
    (h : assignAll stod interface cmd settings = some cmd') (values : List String) :
    assignAll stod interface { cmd with values := values } settings =
      some { cmd' with values := values } := by
  induction settings generalizing cmd with
  | nil =>
    cases h
    rfl
  | cons setting settings ih =>
    obtain ⟨next, hnext, hrest⟩ := assignAll_cons.mp h
    obtain ⟨defValue, value, hdef, hvalue, rfl⟩ := assign_eq_some.mp hnext
    exact assignAll_cons.mpr
      ⟨_, assign_eq_some.mpr ⟨defValue, value, hdef, hvalue, rfl⟩, ih hrest⟩

theorem assignAll_keeps {settings : List (String × String)}
    (h : assignAll stod interface cmd settings = some cmd') : cmd'.values = cmd.values := by
  induction settings generalizing cmd with
  | nil =>
    cases h
    rfl
  | cons setting settings ih =>
    obtain ⟨next, hnext, hrest⟩ := assignAll_cons.mp h
    obtain ⟨defValue, value, hdef, hvalue, rfl⟩ := assign_eq_some.mp hnext
    have hkept := ih hrest
    exact hkept

/-! ## Reading what is written -/

theorem isValidBoolean_of_ofString {text : String} {value : Value F}
    (h : Value.ofString stod .boolean text = .ok value) : isValidBoolean text = true := by
  simp only [Value.ofString] at h
  rw [isValidBoolean, Bool.or_eq_true]
  split at h
  next htrue => exact .inl htrue
  next =>
    split at h
    next hfalse => exact .inr hfalse
    next => cases h

theorem parseArgument_written {name text : String} {type : ValueType} {value : Value F}
    (h : Value.ofString stod type text = .ok value) (argv : List String) :
    parseArgument stod cmd name type (text :: argv) = .ok (cmd.set name value, argv) := by
  rw [parseArgument, if_neg, h]
  rintro ⟨rfl, hnot⟩
  exact hnot (isValidBoolean_of_ofString h)

theorem parseLoop_setting {setting : String × String}
    (h : assign stod interface cmd setting = some cmd') (argv : List String) :
    parseLoop stod interface cmd (writeSetting setting ++ argv) =
      parseLoop stod interface cmd' argv := by
  obtain ⟨defValue, value, hdef, hvalue, rfl⟩ := assign_eq_some.mp h
  rw [writeSetting, List.cons_append, List.cons_append, List.nil_append, parseLoop]
  split
  next name hname =>
    rw [String.toList_ofList] at hname
    obtain rfl : setting.1.toList = name := by
      injection hname with _ hname
      injection hname
    simp only [String.ofList_toList, hdef]
    split
    next hparse =>
      rw [parseArgument_written hvalue] at hparse
      cases hparse
      rw [String.ofList_toList]
    next hparse =>
      rw [parseArgument_written hvalue] at hparse
      cases hparse
  next text hnot htext =>
    rw [String.toList_ofList] at htext
    injection htext with _ htext
    exact absurd htext.symm (hnot _)
  next hnot _ => exact absurd (String.toList_ofList) (hnot _)

theorem parseLoop_settings {settings : List (String × String)}
    (h : assignAll stod interface cmd settings = some cmd') (argv : List String) :
    parseLoop stod interface cmd (settings.flatMap writeSetting ++ argv) =
      parseLoop stod interface cmd' argv := by
  induction settings generalizing cmd with
  | nil =>
    cases h
    rfl
  | cons setting settings ih =>
    obtain ⟨next, hnext, hrest⟩ := assignAll_cons.mp h
    rw [List.flatMap_cons, List.append_assoc, parseLoop_setting hnext]
    exact ih hrest

theorem plain_of_not {text : String} (haliases : ∀ rest, text.toList = '-' :: rest → False) : plain text = true := by
  rw [plain, decide_eq_true_eq]
  intro hhead
  cases htext : text.toList with
  | nil =>
    rw [htext] at hhead
    cases hhead
  | cons c rest =>
    rw [htext] at hhead
    cases hhead
    exact haliases rest htext

/-- Neither of the patterns of an argument. -/
theorem parseLoop_plain {text : String} (hplain : plain text = true) (argv : List String) :
    parseLoop stod interface cmd (text :: argv) =
      if interface.subcommands ≠ [] then
        match interface.subcommands.lookup text with
        | none => .error (.runtimeError "Unknown sub-command")
        | some sub =>
          match parseLoop stod sub (.create text sub) argv with
          | .ok sub => .ok { cmd with subcommand := some sub }
          | .error e => .error e
      else parseLoop stod interface { cmd with values := cmd.values ++ [text] } argv := by
  rw [parseLoop]
  split
  next hname => simp [plain, hname] at hplain
  next htext => simp [plain, htext] at hplain
  next => rfl

theorem parseLoop_values (hnone : interface.subcommands = []) {texts : List String}
    (hplain : texts.all plain = true) :
    parseLoop stod interface cmd texts = .ok { cmd with values := cmd.values ++ texts } := by
  induction texts generalizing cmd with
  | nil =>
    rw [parseLoop, List.append_nil]
    cases cmd
    rfl
  | cons text texts ih =>
    rw [List.all_cons, Bool.and_eq_true] at hplain
    rw [parseLoop_plain hplain.1, if_neg (not_not.mpr hnone), ih hplain.2, List.append_assoc]
    rfl

/-- `parse` reads what is written. -/
theorem parseLoop_write {cmdName : String} {line : Line}
    (h : line.meaning stod interface cmdName = some cmd) :
    parseLoop stod interface (.create cmdName interface) line.write = .ok cmd := by
  induction line generalizing interface cmdName cmd with
  | values settings texts =>
    rw [meaning] at h
    split at h
    next hok =>
      obtain ⟨hnone, hplain⟩ := hok
      obtain ⟨next, hnext, rfl⟩ := Option.map_eq_some_iff.mp h
      have hvalues : next.values = [] := assignAll_keeps hnext
      rw [write, parseLoop_settings hnext]
      by_cases hsub : interface.subcommands = []
      · rw [parseLoop_values hsub hplain, hvalues, List.nil_append]
      · obtain rfl := hnone hsub
        rw [parseLoop, ← hvalues]
        cases next
        rfl
    next => cases h
  | subcommand settings name line ih =>
    simp only [meaning, Option.bind_eq_bind, Option.bind_eq_some_iff] at h
    obtain ⟨sub, hsub, next, hnext, subcommand, hsubcommand, h⟩ := h
    split at h
    next hplain =>
      cases h
      have hne : interface.subcommands ≠ [] := by
        rintro hnil
        rw [hnil] at hsub
        cases hsub
      rw [write, parseLoop_settings hnext, parseLoop_plain hplain, if_pos hne, hsub]
      simp only [ih hsubcommand]
    next => cases h

/-! ## What is read can be written -/

theorem ofString_true : Value.ofString stod .boolean "true" = .ok (.boolean true) := by
  have htrue : trueStrings.contains (upper "true") = true := by decide +kernel
  rw [Value.ofString, if_pos htrue]

theorem assign_true {name : String} {defValue : Value F}
    (hdef : interface.arguments name = some defValue) (htype : defValue.type = .boolean) :
    assign stod interface cmd (name, "true") = some (cmd.set name (.boolean true)) :=
  assign_eq_some.mpr ⟨defValue, .boolean true, hdef, htype ▸ ofString_true, rfl⟩

/-- A boolean without a value is one with the value true. -/
theorem parseArgument_assigns {name : String} {defValue : Value F}
    (hdef : interface.arguments name = some defValue)
    (h : parseArgument stod cmd name defValue.type argv = .ok (cmd', argv')) :
    ∃ text, assign stod interface cmd (name, text) = some cmd' := by
  simp only [parseArgument] at h
  split at h
  next hboolean =>
    cases h
    exact ⟨"true", assign_true hdef hboolean.1⟩
  next =>
    cases argv with
    | nil => cases h
    | cons text rest =>
      simp only at h
      split at h
      next value hvalue =>
        cases h
        exact ⟨text, assign_eq_some.mpr ⟨defValue, value, hdef, hvalue, rfl⟩⟩
      next => cases h

/-- A compound argument is one setting for each of its aliases. -/
theorem parseAliases_assigns {text : List Char}
    (h : parseAliases stod interface cmd text argv = .ok (cmd', argv')) :
    ∃ settings, assignAll stod interface cmd settings = some cmd' := by
  induction text generalizing cmd with
  | nil =>
    cases h
    exact ⟨[], rfl⟩
  | cons c rest ih =>
    simp only [parseAliases] at h
    split at h
    · cases h
    next name _ =>
      split at h
      · cases h
      next defValue hdef =>
        split at h
        · split at h
          next hboolean =>
            obtain ⟨settings, hsettings⟩ := ih h
            exact ⟨_, assignAll_cons.mpr ⟨_, assign_true hdef hboolean, hsettings⟩⟩
          next => cases h
        · obtain ⟨text, htext⟩ := parseArgument_assigns hdef h
          exact ⟨_, assignAll_cons.mpr ⟨_, htext, assignAll_nil⟩⟩

/-- What has been parsed so far is what a line says. -/
structure Written (stod : String → Option F) (interface : Interface F) (cmdName : String)
    (cmd : Command F) : Prop where
  settings : ∃ settings, assignAll stod interface (.create cmdName interface) settings =
    some { cmd with values := [] }
  plain_values : cmd.values.all plain = true
  no_values : interface.subcommands ≠ [] → cmd.values = []

theorem written_create (cmdName : String) :
    Written stod interface cmdName (.create cmdName interface) :=
  ⟨⟨[], rfl⟩, rfl, fun _ => rfl⟩

theorem Written.assignAll {cmdName : String} (h : Written stod interface cmdName cmd)
    {more : List (String × String)} (hmore : assignAll stod interface cmd more = some cmd') :
    Written stod interface cmdName cmd' := by
  have hvalues := assignAll_keeps hmore
  obtain ⟨settings, hsettings⟩ := h.settings
  exact ⟨⟨_, assignAll_append hsettings (assignAll_values hmore [])⟩, hvalues ▸ h.plain_values,
    hvalues ▸ h.no_values⟩

theorem Written.line {cmdName : String} (h : Written stod interface cmdName cmd)
    (hparse : parseLoop stod interface cmd argv = .ok cmd') :
    ∃ line : Line, line.meaning stod interface cmdName = some cmd' := by
  fun_induction parseLoop stod interface cmd argv generalizing cmdName cmd' with
  | case1 interface cmd =>
    cases hparse
    obtain ⟨settings, hsettings⟩ := h.settings
    refine ⟨.values settings cmd.values, ?_⟩
    rw [meaning, if_pos ⟨h.no_values, h.plain_values⟩, hsettings]
    cases cmd
    rfl
  | case2 => cases hparse
  | case3 interface cmd arg argv name _ defValue hdef next argv' hargument ih =>
    obtain ⟨text, htext⟩ := parseArgument_assigns hdef hargument
    exact ih (h.assignAll (assignAll_cons.mpr ⟨_, htext, assignAll_nil⟩)) hparse
  | case4 => cases hparse
  | case5 interface cmd arg argv text _ _ next argv' haliases ih =>
    obtain ⟨settings, hsettings⟩ := parseAliases_assigns haliases
    exact ih (h.assignAll hsettings) hparse
  | case6 => cases hparse
  | case7 => cases hparse
  | case8 interface cmd arg argv hsubcommands sub hsub subcommand hsubcommand hname htext ih =>
    -- the sub-command starts over, with a line of its own
    cases hparse
    obtain ⟨settings, hsettings⟩ := h.settings
    obtain ⟨line, hline⟩ := ih (written_create arg) hsubcommand
    have hplain : plain arg = true := plain_of_not htext
    refine ⟨.subcommand settings arg line, ?_⟩
    simp only [meaning, hsub, hsettings, hline, Option.bind_eq_bind, Option.bind_some, if_pos hplain]
    rw [← h.no_values hsubcommands]
    rfl
  | case9 => cases hparse
  | case10 interface cmd arg argv hsubcommands hname htext ih =>
    -- settings may follow, but they can be written in front of the value
    refine ih ⟨h.settings, ?_, fun hne => absurd hne hsubcommands⟩ hparse
    simp [h.plain_values, plain_of_not htext]

end

/-- `parse` returns what a plainly written line means, and whatever it returns for any other
    line is what such a line means as well. -/
theorem parse_lines (stod : String → Option F) (interface : Interface F) (cmdName : String) :
    (∀ (line : Line) (cmd : Command F), line.meaning stod interface cmdName = some cmd →
      parse stod interface cmdName line.write = .ok cmd) ∧
    ∀ (argv : List String) (cmd : Command F), parse stod interface cmdName argv = .ok cmd →
      ∃ line : Line, line.meaning stod interface cmdName = some cmd ∧
        parse stod interface cmdName line.write = .ok cmd := by
  refine ⟨fun line cmd h => parseLoop_write h, fun argv cmd h => ?_⟩
  obtain ⟨line, hline⟩ := (written_create cmdName).line h
  exact ⟨line, hline, parseLoop_write hline⟩

/-- A flag and a number. -/
def sampleInterface : Interface Nat :=
  ⟨fun c => if c = 'l' then some "list" else none,
    fun name =>
      if name = "list" then some (.boolean false)
      else if name = "baudrate" then some (.floating 720000)
      else none,
    []⟩

theorem parse_lines_sampleInterface : ∃ (line : Line) (cmd : Command Nat),
    parse sampleStod sampleInterface "ryfi"
        ["-l", "file", "--baudrate", "9600"] = .ok cmd ∧
      parse sampleStod sampleInterface "ryfi" line.write = .ok cmd ∧
      cmd.arguments "list" = some (.boolean true) ∧ cmd.values = ["file"] := by
  have hvalue : (parse sampleStod sampleInterface "ryfi"
      ["-l", "file", "--baudrate", "9600"]).toOption.map (fun cmd =>
        (cmd.arguments "list", cmd.values)) = some (some (.boolean true), ["file"]) := by
    decide +kernel
  cases hcmd : parse sampleStod sampleInterface "ryfi"
      ["-l", "file", "--baudrate", "9600"] with
  | error e =>
    rw [hcmd] at hvalue
    cases hvalue
  | ok cmd =>
    rw [hcmd] at hvalue
    obtain ⟨line, -, hline⟩ := (parse_lines _ sampleInterface "ryfi").2 _ cmd hcmd
    have hvalues := Prod.mk.inj (Option.some.inj hvalue)
    exact ⟨line, cmd, rfl, hline, hvalues⟩

end RyFi.Cli
