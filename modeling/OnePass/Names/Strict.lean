import OnePass.Access
import OnePass.Names.SymbolTable

/-!
# Checked lookups

The lookups of the symbol table, with every row and every scope that they touch found by its
number. A number of no row and of no scope stops them. They bear the names of the lookups they
are the checked form of.

* `scopeAt`, `rowAt`: the scope and the row of a number.
* `enclosing`, `sameBody`, `isLoop`, `insideBody`, `leave`: scopes.
* `ownRows`, `latestIn`, `resolve`, `functionsIn`, `callee?`: rows.
* `rowFor`, `record`, `setMeaning`, `retire`: changes of the table.
-/

namespace OnePass.Names.Strict

open Lexical (Token TokenKind)

section Scopes

variable (t : Scopes)

def scopeAt (s : Nat) : Checked Scope := Checked.item t.all s (.scope s)

/-- A scope and the scopes around it, innermost first. -/
def enclosing (s : Nat) : Checked (List Nat) := do
  match (← scopeAt t s).parent with
  | none => return [s]
  | some parent => if parent < s then return s :: (← enclosing parent) else .error .standstill
termination_by s

/-- The leading loops of a list of scopes and the first scope that is none. -/
def throughLoops : List Nat → Checked (List Nat)
  | [] => return []
  | s :: rest => do
    if (← scopeAt t s).region = .loop then return s :: (← throughLoops rest) else return [s]

/-- The scopes of the function body, or of the top level, that `s` belongs to. -/
def sameBody (s : Nat) : Checked (List Nat) := do throughLoops t (← enclosing t s)

/-- Whether `s` is a loop. -/
def isLoop (s : Nat) : Checked Bool := return (← scopeAt t s).region == .loop

/-- Whether `s` lies inside the body of the function on row `row`. -/
def insideBody (s row : Nat) : Checked Bool := do
  (← enclosing t s).anyM fun outer => return (← scopeAt t outer).region == .body row

/-- Closes the current scope and goes back to the one around it. The outermost scope stays
open. -/
def leave (endRow : Nat) : Checked Scopes := do
  let scope ← scopeAt t t.current
  match scope.parent with
  | some parent =>
    let all ← Checked.change t.all t.current (fun s => { s with endRow := some endRow })
      (.scope t.current)
    return ⟨all, parent⟩
  | none => return t

end Scopes

section Rows

variable (t : SymbolTable)

def rowAt (i : Nat) : Checked Row := Checked.item t.rows i (.row i)

/-- The rows owned by a scope, latest first. -/
def ownRows (scope : Nat) : Checked (List Nat) := do
  let s ← scopeAt t.scopes scope
  let count := s.endRow.getD t.rows.size - s.firstRow
  (List.range' s.firstRow count).reverse.filterM fun i => return (← rowAt t i).scope == scope

/-- Whether row `i` carries the name, and a cell if one is asked for. -/
def carries (name : String) (withCell : Bool) (i : Nat) : Checked Bool := do
  let r ← rowAt t i
  return r.name == name && (!withCell || r.meaning.cell?.isSome)

/-- The latest row of the name in the scope itself. -/
def latestIn (scope : Nat) (name : String) (withCell : Bool) : Checked (Option Nat) := do
  (← ownRows t scope).findM? (carries t name withCell)

/-- The row a name stands for, seen from a scope. -/
def resolve (name : String) (scope : Nat) (withCell outward : Bool) : Checked (Option Nat) := do
  let scopes ← if outward then enclosing t.scopes scope else pure [scope]
  scopes.findSomeM? fun s => latestIn t s name withCell

/-- The cell of the variable on a row, if it is one and has one. -/
def cell? (row : Nat) : Checked (Option Nat) := return (← rowAt t row).meaning.cell?

/-- The function a row stands for, if it does. -/
def function? (row : Nat) : Checked (Option FunctionInfo) :=
  return (← rowAt t row).meaning.function?

/-- The functions of a name declared in the scope itself, latest first. -/
def functionsIn (scope : Nat) (name : String) : Checked (List Nat) := do
  (← ownRows t scope).filterM fun i => do
    let r ← rowAt t i
    return r.name == name && r.isFunction

/-- The functions of a name visible from a scope, nearest scope first and latest first within a
scope. -/
def visibleFunctions (scope : Nat) (name : String) : Checked (List Nat) := do
  return (← (← enclosing t.scopes scope).mapM fun s => functionsIn t s name).flatten

/-- The function that a call with `count` arguments selects among those that are visible. -/
def callee? (visible : List Nat) (count : Nat) : Checked (Option (Nat × FunctionInfo)) :=
  visible.findSomeM? fun row =>
    return ((← function? t row).filter (·.arity = count)).map fun info => (row, info)

/-- The row of a name in the current scope, and the table with it: the latest one if `reuse`
accepts its meaning, else a fresh one. -/
def rowFor (name : String) (kind : TokenKind) (reuse : Meaning → Bool) :
    Checked (Nat × SymbolTable) := do
  match ← latestIn t t.currentScope name false with
  | some row =>
    if reuse (← rowAt t row).meaning then return (row, t) else return t.appendRow name kind
  | none => return t.appendRow name kind

/-- Enters a word that has just been read. -/
def recordWord (word : String) (kind : TokenKind) : Checked (Nat × SymbolTable) := do
  let seeded ← if kind = .keyword then latestIn t Scopes.outermost word false else pure none
  match seeded with
  | some row => return (row, t)
  | none => rowFor t word kind fun meaning => !meaning.isFunction

/-- Enters a token if it is a word. -/
def record (token : Token) : Checked SymbolTable := do
  if token.isWord then return (← recordWord t token.lexeme token.kind).2 else return t

def modifyRow (row : Nat) (f : Row → Row) : Checked SymbolTable := do
  return { t with rows := ← Checked.change t.rows row f (.row row) }

def setMeaning (row : Nat) (meaning : Meaning) : Checked SymbolTable :=
  modifyRow t row fun r => { r with meaning := meaning }

/-- Takes a function's row out of every lookup. -/
def retire (row : Nat) : Checked SymbolTable := modifyRow t row Row.retire

def leaveScope : Checked SymbolTable := return { t with scopes := ← leave t.scopes t.rows.size }

end Rows

/-- Closes the innermost loop and hands over the jumps added since it began; nothing if no loop
is open. -/
def leave? (l : LoopRecord) : Checked (Option (ClosedLoop × LoopRecord)) := do
  match l.starts with
  | [] => return none
  | start :: starts =>
    let breakMark := min (l.breakMarks.headD 0) l.breaks.length
    let continueMark := min (l.continueMarks.headD 0) l.continues.length
    let (outerBreaks, breaks) ← Checked.splitOff l.breaks breakMark
    let (outerContinues, continues) ← Checked.splitOff l.continues continueMark
    return some (⟨start, breaks, continues⟩,
      { breaks := outerBreaks
        continues := outerContinues
        starts := starts
        breakMarks := l.breakMarks.tail
        continueMarks := l.continueMarks.tail })

end OnePass.Names.Strict
