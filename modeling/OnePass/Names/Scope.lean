/-!
# Lexical scopes

Scopes are numbered in the order they open; scope 0 is the whole program and never
closes. A scope records which symbol rows were entered while it was open.

* `Scopes.enclosing`: a scope and the scopes around it, innermost first.
* `Scopes.sameBody`: those of them that belong to the same function body.
* `Scopes.isLoop`, `Scopes.insideBody`: what a scope stands in.
-/

namespace OnePass.Names

/-- The part of a program that a scope stands for. -/
inductive Region where
  | program
  /-- The body of the function on symbol row `row`. -/
  | body (row : Nat)
  | loop
deriving DecidableEq, Inhabited

/-- A scope and the range of symbol rows entered in it or below it. -/
structure Scope where
  parent : Option Nat
  region : Region
  firstRow : Nat
  /-- One past the last row, once the scope is closed. -/
  endRow : Option Nat
deriving DecidableEq, Inhabited

/-- The scopes opened so far and the one that is current. -/
structure Scopes where
  all : Array Scope
  current : Nat
deriving DecidableEq

namespace Scopes

/-- The scope of the whole program. -/
def outermost : Nat := 0

/-- Only the outermost scope, and it is current. -/
def initial : Scopes := ⟨#[⟨none, .program, 0, none⟩], outermost⟩

instance : Inhabited Scopes := ⟨initial⟩

def region? (t : Scopes) (s : Nat) : Option Region := t.all[s]?.map (·.region)

/-- Opens a scope inside the current one and makes it current. -/
def enter (t : Scopes) (region : Region) (firstRow : Nat) : Scopes where
  all := t.all.push ⟨some t.current, region, firstRow, none⟩
  current := t.all.size

/-- Closes the current scope and goes back to the one around it. The outermost scope stays
open. -/
def leave (t : Scopes) (endRow : Nat) : Scopes :=
  match t.all[t.current]? with
  | some scope =>
    match scope.parent with
    | some parent =>
      { all := t.all.setIfInBounds t.current { scope with endRow := some endRow }
        current := parent }
    | none => t
  | none => t

/-- **A scope and the scopes around it,** innermost first. A scope's parent is older than the
scope, so the walk goes down in number. -/
def enclosing (t : Scopes) (s : Nat) : List Nat :=
  match t.all[s]? with
  | none => []
  | some scope =>
    s :: match scope.parent with
      | some parent => if parent < s then t.enclosing parent else []
      | none => []
termination_by s

/-- The leading loops of a list of scopes and the first scope that is none. -/
def throughLoops (t : Scopes) : List Nat → List Nat
  | [] => []
  | s :: rest => if t.region? s = some .loop then s :: t.throughLoops rest else [s]

/-- The scopes of the function body, or of the top level, that `s` belongs to: out through the
loops up to the body's own scope. -/
def sameBody (t : Scopes) (s : Nat) : List Nat := t.throughLoops (t.enclosing s)

/-- Whether `s` is a loop. A function body inside a loop is not. -/
def isLoop (t : Scopes) (s : Nat) : Bool := t.region? s == some .loop

/-- Whether `s` lies inside the body of the function on row `row`. -/
def insideBody (t : Scopes) (s row : Nat) : Bool :=
  (t.enclosing s).any fun outer => t.region? outer == some (.body row)

end Scopes

end OnePass.Names
