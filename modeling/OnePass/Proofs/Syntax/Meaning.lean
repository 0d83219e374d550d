import Mathlib.Logic.Function.Basic
import OnePass.Decimal
import OnePass.Proofs.Syntax.Phrases

/-!
# What a text without calls means

Names are bound to cells in the order of the text, whatever is run: a name is bound where it
is first assigned, in the innermost loop or function around it, and a function does not see
what is assigned around it but reads it. A text is run statement by statement on what the
cells hold; definitions are passed over.

* `Bindings`: the cells of names at a place. `Bindings.assign`, `Bindings.global`.
* `Statement.binds`, `blockBinds`: the bindings behind a statement and a block.
* `Expr.eval`, `Relation.holds`: values. `Statement.run`, `blockRun`: the run of a text.
* `blockRoutines`: the functions of a text. `programRun`: a text and one of its functions.
* `Statement.isPlain`, `blockIsPlain`: texts that only use what is given a meaning here.
-/

namespace OnePass.Syntax

/-- **A stretch of text that names are bound in:** the whole text, the body of a function or a
loop. -/
structure Frame where
  isLoop : Bool
  cells : String → Option Nat

/-- **The bindings at a place in a text,** those of the innermost stretch first. -/
structure Bindings where
  /-- How far cells lie apart. -/
  unit : Nat
  /-- The cell that is handed out next. -/
  next : Nat
  frames : List Frame

namespace Bindings

variable (b : Bindings) (x : String)

/-- The bindings where a text begins. -/
def initial (unit next : Nat) : Bindings := ⟨unit, next, [⟨false, fun _ => none⟩]⟩

/-- The cell that a name is read from: the nearest stretch that binds it decides. -/
def read? : Option Nat := b.frames.findSome? (·.cells x)

/-- The loops around a place, and the function or the whole text that they stand in. -/
def sameBody : List Frame → List Frame
  | [] => []
  | f :: outer => if f.isLoop then f :: sameBody outer else [f]

/-- The cell that an assignment to a name writes, if it is bound already. -/
def own? : Option Nat := (sameBody b.frames).findSome? (·.cells x)

/-- The name stands for a cell in the innermost stretch. -/
def bind (cell : Nat) : Bindings :=
  match b.frames with
  | [] => b
  | f :: outer =>
    { b with frames := { f with cells := Function.update f.cells x (some cell) } :: outer }

/-- Cells are handed out. -/
def skip (count : Nat) : Bindings := { b with next := b.next + count * b.unit }

/-- The name gets a cell of its own. -/
def fresh : Bindings := (b.bind x b.next).skip 1

/-- The name is assigned. -/
def assign : Bindings := if (b.own? x).isSome then b else b.fresh x

/-- The name stands for what it stands for in the whole text. -/
def global : Bindings :=
  match b.frames.tail.getLast?.bind (·.cells x) with
  | some cell => b.bind x cell
  | none => b

def enter (isLoop : Bool) : Bindings := { b with frames := ⟨isLoop, fun _ => none⟩ :: b.frames }

def leave : Bindings := { b with frames := b.frames.tail }

/-- The bindings where the body of a function begins. Two cells are for its result and for the
place to return to. -/
def header (params : List String) : Bindings := params.foldl fresh ((b.skip 2).enter false)

end Bindings

mutual

/-- **The bindings behind a statement,** whether it is run or not. -/
def Statement.binds : Statement → Bindings → Bindings
  | .assign x _, b => b.assign x
  | .global x, b => b.global x
  | .define _ params body, b => (blockBinds body (b.header params)).leave
  | .ifThen _ body, b => blockBinds body b
  | .ifElse _ body other, b => blockBinds other (blockBinds body b)
  | .loop _ body, b => (blockBinds body (b.enter true)).leave
  | _, b => b

def blockBinds : List Statement → Bindings → Bindings
  | [], b => b
  | s :: rest, b => blockBinds rest (s.binds b)

end

/-- What cells hold. -/
abbrev Store := Nat → Int

def Operator.apply : Operator → Int → Int → Int
  | add => (· + ·)
  | sub => (· - ·)
  | mult => (· * ·)

/-- **The value of an expression.** An exponent below zero counts as zero. -/
def Expr.eval (b : Bindings) (σ : Store) : Expr → Int
  | .number digits => Decimal.value digits.toList
  | .name x => ((b.read? x).map σ).getD 0
  | .power base exponent => base.eval b σ ^ (exponent.eval b σ).toNat
  | .combine op left right => op.apply (left.eval b σ) (right.eval b σ)
  | .element .. | .call .. => 0

def Relation.holds (r : Relation) (b : Bindings) (σ : Store) : Bool :=
  if r.equal then r.left.eval b σ = r.right.eval b σ else r.left.eval b σ < r.right.eval b σ

/-- **How a stretch of text ends:** at its end, with a jump out of a turn of a loop, or with a
return. -/
inductive Ending where
  | falls
  | leaves (exit : Exit)
  | returns
deriving DecidableEq

/-- **A run:** what the cells hold in the end, what has been printed, and how it ends, if it does
within the turns that a loop may take. -/
structure Run where
  store : Store
  output : List Int
  ending : Option Ending

namespace Run

/-- A run that prints nothing. -/
def silent (σ : Store) (e : Ending) : Run := ⟨σ, [], some e⟩

/-- The run and what comes behind, if it falls through to that. -/
def andThen (r : Run) (next : Store → Run) : Run :=
  match r.ending with
  | some .falls => { next r.store with output := r.output ++ (next r.store).output }
  | _ => r

/-- A turn of a loop and the turns behind it. -/
def turn (r : Run) (next : Store → Run) : Run :=
  match r.ending with
  | some .falls | some (.leaves .continues) =>
    { next r.store with output := r.output ++ (next r.store).output }
  | some (.leaves .breaks) => { r with ending := some .falls }
  | _ => r

end Run

/-- **The turns of a loop,** at most so many. -/
def turns (test : Store → Bool) (body : Store → Run) : Nat → Store → Run
  | 0, σ => ⟨σ, [], none⟩
  | fuel + 1, σ =>
    if test σ then (body σ).turn (turns test body fuel) else .silent σ .falls

mutual

/-- **The run of a statement,** in which no loop takes more turns than there is fuel. -/
def Statement.run (fuel : Nat) : Statement → Bindings → Store → Run
  | .assign x (.value e), b, σ =>
    let written := ((b.assign x).own? x).map fun cell =>
      Function.update σ cell (e.eval (b.assign x) σ)
    .silent (written.getD σ) .falls
  | .print e, b, σ => ⟨σ, [e.eval b σ], some .falls⟩
  | .leave exit, _, σ => .silent σ (.leaves exit)
  | .returnValue _, _, σ | .returnNothing, _, σ => .silent σ .returns
  | .ifThen test body, b, σ =>
    if test.holds b σ then blockRun fuel body b σ else .silent σ .falls
  | .ifElse test body other, b, σ =>
    if test.holds b σ then blockRun fuel body b σ
    else blockRun fuel other (blockBinds body b) σ
  | .loop test body, b, σ =>
    turns (test.holds (b.enter true)) (blockRun fuel body (b.enter true)) fuel σ
  | _, _, σ => .silent σ .falls

def blockRun (fuel : Nat) : List Statement → Bindings → Store → Run
  | [], _, σ => .silent σ .falls
  | s :: rest, b, σ => (s.run fuel b σ).andThen (blockRun fuel rest (s.binds b))

end

/-- **A function of a text,** with the bindings where its body begins. -/
structure Routine where
  name : String
  params : List String
  body : Block
  bindings : Bindings

mutual

/-- The functions that a statement defines, in the order of the text. -/
def Statement.routines : Statement → Bindings → List Routine
  | .define f params body, b =>
    ⟨f, params, body, b.header params⟩ :: blockRoutines body (b.header params)
  | .ifThen _ body, b => blockRoutines body b
  | .ifElse _ body other, b => blockRoutines body b ++ blockRoutines other (blockBinds body b)
  | .loop _ body, b => blockRoutines body (b.enter true)
  | _, _ => []

/-- **The functions that a text defines.** -/
def blockRoutines : List Statement → Bindings → List Routine
  | [], _ => []
  | s :: rest, b => s.routines b ++ blockRoutines rest (s.binds b)

end

/-- **The run of a text,** from cells that hold zero, and then of a function. -/
def programRun (text : Block) (b : Bindings) (main : Routine) (fuel : Nat) : Run :=
  (blockRun fuel text b fun _ => 0).andThen (blockRun fuel main.body main.bindings)

/-- Values of numbers and variables. -/
def Expr.isPlain : Expr → Bool
  | .number _ | .name _ => true
  | .power base exponent => base.isPlain && exponent.isPlain
  | .combine _ left right => left.isPlain && right.isPlain
  | .element .. | .call .. => false

def Relation.isPlain (r : Relation) : Bool := r.left.isPlain && r.right.isPlain

mutual

/-- **Statements without calls, lists and elements,** in a function or not. A return stands in a
function. -/
def Statement.isPlain : Statement → Bool → Bool
  | .assign _ (.value e), _ => e.isPlain
  | .print e, _ => e.isPlain
  | .returnValue e, inFunction => inFunction && e.isPlain
  | .returnNothing, inFunction => inFunction
  | .global _, _ | .leave _, _ => true
  | .define _ _ body, _ => blockIsPlain body true
  | .ifThen test body, inFunction => test.isPlain && blockIsPlain body inFunction
  | .ifElse test body other, inFunction =>
    test.isPlain && blockIsPlain body inFunction && blockIsPlain other inFunction
  | .loop test body, inFunction => test.isPlain && blockIsPlain body inFunction
  | .assign _ (.list ..), _ | .assignElement .., _ | .call .., _ => false

def blockIsPlain : List Statement → Bool → Bool
  | [], _ => true
  | s :: rest, inFunction => s.isPlain inFunction && blockIsPlain rest inFunction

end

end OnePass.Syntax
