import OnePass.Emission.Function

/-!
# Code for calls

The name of a call waits while its arguments are compiled, and a number on the stack
counts them. Then the function is chosen: the arguments are copied into its cells, the
slot behind the call goes into its return cell, and its result into a temporary.

* `startCall`, `countArgument`, `resolveCall`: a call.
* `dropResult`: a call that stands as a statement.
* `callMain`: the end of a program.
-/

namespace OnePass.Emission

open Names Target

/-- Remembers the name that is called, and puts the number of its arguments so far on the stack. -/
def startCall (name : String) : Emit Unit := do
  push (.immediate 0)
  modify fun g => { g with pendingCalls := name :: g.pendingCalls }

/-- Counts an argument: the number below it moves above it, one greater. -/
def countArgument : Emit Unit := do
  let count ← modifyGet fun g =>
    match g.stack.take? 1 with
    | some (o, rest) => (o, { g with stack := rest })
    | none => (Operand.immediate 0, g)
  push (.immediate count.increment)

/-- Takes as many values as there are arguments, the one on top last. -/
def takeValues (line : Nat) : Nat → Emit (List Operand)
  | 0 => return []
  | count + 1 => do
    let last ← takeValue line
    let others ← takeValues line count
    return others ++ [last]

/-- Stores the slot to return to and jumps to a function. -/
def jumpInto (info : FunctionInfo) : Emit Unit := do
  let call := (← get).programNext
  -- the store and the jump take one slot each
  emit (.assign (.immediate (call + 2)) (.direct info.returnCell))
  emit (.jump info.start)

/-- Copies the arguments, calls a function and takes its result into a temporary. -/
def callFunction (row : Nat) (info : FunctionInfo) (arguments : List Operand) : Emit Unit := do
  (arguments.zip info.params).forM fun (argument, cell) =>
    emit (.assign argument (.direct cell))
  jumpInto info
  let result ← freshTemp
  emit (.assign (.direct info.result) (.direct result))
  let g ← get
  -- inside its own body it is not settled yet whether the function gives a value
  if !info.returnsValue && !g.symbols.scopes.insideBody g.currentScope row then
    modify (·.markVoid result)
  push (.direct result)

/-- Compiles a call whose arguments have been compiled: of the functions of that name that can be
seen, nearest and latest first, the first with that many parameters is called. -/
def resolveCall (line : Nat) : Emit Unit := do
  let counter ← pop
  let count := min (counter.index?.getD 0) (← get).stack.length
  let arguments ← takeValues line count
  let name := (← get).pendingCalls.headD ""
  modify fun g => { g with pendingCalls := g.pendingCalls.tail }
  let symbols := (← get).symbols
  match symbols.callee? symbols.currentScope name count with
  | some (row, info) => callFunction row info arguments
  | none =>
    let known := symbols.nearestFunction symbols.currentScope name
    report line (if known.isSome then .argumentCount name else .undefined name)
    push (.immediate 0)

/-- Drops the result of a call that is a statement. -/
def dropResult : Emit Unit := do
  let result ← pop
  if (← get).memory.inTempZone result.value then
    match Generator.directCell? result with
    | some cell =>
      modify (·.clearVoid cell)
      dropTemp cell
    | none => return

/-- The name of the function a program starts with. -/
def mainName : String := "main"

/-- Ends the program with a call of the latest `main` at top level, or reports that there is
none. -/
def callMain (line : Nat) : Emit Unit := do
  match ((← get).symbols.functionsIn Scopes.outermost mainName).head? with
  | some row =>
    let info ← functionOn row
    jumpInto info
  | none => report line .noMain

end OnePass.Emission
