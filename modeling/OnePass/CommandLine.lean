import OnePass.Report

/-!
# The command line

Two commands: `check` prints the diagnostics and the code of a file, `compile` writes
its reports into a directory. Options that size the memory image come before the command.

* `Invocation.parse?`: the arguments read, or nothing if they do not fit.
* `Invocation.run`: what a command prints and answers, over any access to files.
-/

namespace OnePass.CommandLine

/-- What to do with a source file. -/
inductive Command where
  /-- Prints the diagnostics and the code. -/
  | check (path : String)
  /-- Writes the reports, into the current directory if none is named. -/
  | compile (path : String) (directory : Option String)
deriving DecidableEq

/-- The options before the command. -/
structure Options where
  verbose : Bool
  builtinOutput : Bool
  unit : Option Nat
  programSize : Option Nat
  dataSize : Option Nat
  capacity : Option Nat
deriving DecidableEq

namespace Options

/-- No option given. -/
def none : Options := ⟨false, false, .none, .none, .none, .none⟩

/-- The standard configuration with what the options change. -/
def config (o : Options) : Config where
  unit := o.unit.getD Config.standard.unit
  programSize := o.programSize.getD Config.standard.programSize
  dataSize := o.dataSize.getD Config.standard.dataSize
  capacity := o.capacity.getD Config.standard.capacity
  keywords := Config.standard.keywords
  builtinOutput := o.builtinOutput

end Options

structure Invocation where
  options : Options
  command : Command
deriving DecidableEq

/-- The options that want a value. -/
inductive Setting where
  | unit
  | programSize
  | dataSize
  | capacity
  | outDir
deriving DecidableEq

def Setting.flag : Setting → String
  | .unit => "--unit"
  | .programSize => "--program-size"
  | .dataSize => "--data-size"
  | .capacity => "--capacity"
  | .outDir => "--out-dir"

/-- Which command has been named so far. -/
inductive Verb where
  | check
  | compile
deriving DecidableEq

/-- The settings that may be given once the command is known, and before. -/
def settingsOf : Option Verb → List Setting
  | none => [.unit, .programSize, .dataSize, .capacity]
  | some .check => []
  | some .compile => [.outDir]

/-- Arguments read so far. -/
structure Reading where
  options : Options
  verb : Option Verb
  path : Option String
  directory : Option String
  /-- The setting whose value the next argument is. -/
  awaiting : Option Setting
  /-- Whether no more options can come. -/
  literal : Bool

namespace Reading

def start : Reading := ⟨.none, none, none, none, none, false⟩

/-- Whether an argument is an option; a lone dash is none. -/
def isOption (argument : String) : Bool :=
  argument.toList.head? == some '-' && argument != "-"

/-- Puts a value where none has been put. -/
def fill {α : Type} (slot : Option α) (value : α) : Option (Option α) :=
  match slot with
  | none => some (some value)
  | some _ => none

variable (r : Reading)

/-- The value of a setting. One that has been given already, or is no number where a number is
wanted, is refused. -/
def setValue (setting : Setting) (value : String) : Option Reading := do
  let number := Decimal.natural? Decimal.maxUnsigned64 value.toList
  let o := r.options
  match setting with
  | .unit => return { r with options := { o with unit := ← fill o.unit (← number) } }
  | .programSize =>
    return { r with options := { o with programSize := ← fill o.programSize (← number) } }
  | .dataSize => return { r with options := { o with dataSize := ← fill o.dataSize (← number) } }
  | .capacity => return { r with options := { o with capacity := ← fill o.capacity (← number) } }
  | .outDir => return { r with directory := ← fill r.directory value }

/-- An option without a value, which may be given once and only before the command. -/
def setSwitch (flag : String) : Option Reading :=
  let o := r.options
  if r.verb.isSome then none
  else if (flag = "-v" ∨ flag = "--verbose") ∧ !o.verbose then
    some { r with options := { o with verbose := true } }
  else if flag = "--builtin-output" ∧ !o.builtinOutput then
    some { r with options := { o with builtinOutput := true } }
  else none

/-- The setting of that flag that may be given now. -/
def setting? (flag : String) : Option Setting :=
  (settingsOf r.verb).find? (·.flag == flag)

/-- An option, alone or with its value behind an equals sign. -/
def takeOption (argument : String) : Option Reading :=
  let text := argument.toList
  let flag := String.ofList (text.takeWhile (· ≠ '='))
  match text.dropWhile (· ≠ '=') with
  | [] =>
    match r.setting? flag with
    | some setting => some { r with awaiting := some setting }
    | none => r.setSwitch flag
  | _ :: value => do r.setValue (← r.setting? flag) (String.ofList value)

/-- A command, or the path of its file. -/
def takeWord (word : String) : Option Reading :=
  match r.verb with
  | none =>
    if word = "check" then some { r with verb := some .check }
    else if word = "compile" then some { r with verb := some .compile }
    else none
  | some _ => do return { r with path := ← fill r.path word }

/-- The next argument. -/
def take (argument : String) : Option Reading :=
  match r.awaiting with
  | some setting =>
    if isOption argument then none
    else ({ r with awaiting := none }).setValue setting argument
  | none =>
    if r.literal || !isOption argument then r.takeWord argument
    else if argument = "--" then
      if r.verb.isSome then some { r with literal := true } else none
    else r.takeOption argument

/-- The command once every argument has been read. -/
def finish? : Option Invocation :=
  if r.awaiting.isSome then none
  else
    match r.verb, r.path with
    | some .check, some path => some ⟨r.options, .check path⟩
    | some .compile, some path => some ⟨r.options, .compile path r.directory⟩
    | _, _ => none

end Reading

/-- What a command may ask of files. A request that fails answers why. -/
structure FileAccess (m : Type → Type) where
  /-- The text of a file, if it can be read as text. -/
  readText : String → m (Option String)
  /-- Makes a directory and those it lies in, as far as they do not exist. -/
  makeDirectory : String → m (Except String Unit)
  writeText : String → String → m (Except String Unit)

/-- What a command prints on its two outputs, and its exit code. -/
structure Outcome where
  stdout : String
  stderr : String
  exitCode : Nat
deriving DecidableEq

namespace Outcome

def success : Outcome := ⟨"", "", 0⟩

/-- Nothing but a complaint. -/
def failure (complaint : String) : Outcome := ⟨"", complaint ++ "\n", 1⟩

end Outcome

/-- The exit code for arguments that do not fit. -/
def usageExitCode : Nat := 1

/-- The compilation of a file's text; a file that cannot be read has none. -/
def compileText (c : Config) : Option String → Except Failure Compilation
  | some source => OnePass.compile c source
  | none => .error (.defect .unreadableSource)

/-- Diagnostics and code of a compilation. Any error at all makes the command fail. -/
def checkOutcome (c : Compilation) : Outcome where
  stdout := unlines (match c.code with
    | some code => Compilation.numberedCode code
    | none => [Compilation.noCode])
  stderr := unlines c.diagnostics
  exitCode := if c.hasErrors then 1 else 0

/-- A name inside a directory. -/
def inside (directory name : String) : String :=
  if directory = "" ∨ directory.toList.getLast? = some '/' then directory ++ name
  else directory ++ "/" ++ name

section

variable {m : Type → Type} [Monad m] (files : FileAccess m)

/-- Writes files into a directory, up to the first that fails. -/
def saveAll (directory : String) : List (String × String) → m (Except String Unit)
  | [] => return .ok ()
  | (name, content) :: rest => do
    let path := inside directory name
    match ← files.writeText path content with
    | .ok () => saveAll directory rest
    | .error cause => return .error s!"Failed write {path}: {cause}"

/-- Writes the reports of a compilation into a directory. -/
def saveReports (c : Compilation) (directory : String) : m (Except String Unit) := do
  match ← files.makeDirectory directory with
  | .ok () => saveAll files directory c.reports
  | .error cause => return .error s!"Failed create report directory {directory}: {cause}"

/-- **What a command does.** The reports of a program with errors are written like any others. -/
def Invocation.run (i : Invocation) : m Outcome := do
  let path := match i.command with
    | .check path => path
    | .compile path _ => path
  match compileText i.options.config (← files.readText path), i.command with
  | .error e, _ => return .failure s!"Failed compile file: {e.message}"
  | .ok c, .check _ => return checkOutcome c
  | .ok c, .compile _ directory =>
    match ← saveReports files c (directory.getD ".") with
    | .ok () => return .success
    | .error complaint => return .failure s!"Failed write reports: {complaint}"

end

/-- **The arguments of a command line,** or nothing if they do not fit together. -/
def Invocation.parse? (arguments : List String) : Option Invocation := do
  (← arguments.foldlM Reading.take .start).finish?

end OnePass.CommandLine
