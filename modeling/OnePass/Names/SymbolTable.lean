import OnePass.Lexical.Token
import OnePass.Names.Meaning
import OnePass.Names.Scope

/-!
# The symbol table

Rows are appended and never move. A scope owns the rows entered while it was
current; they lie inside its range, with the rows of inner scopes between them. A
lookup walks a scope's rows from the latest back, and then goes outward.

* `SymbolTable.resolve`: the row a name stands for.
* `SymbolTable.visibleFunctions`: the functions of a name, nearest scope first.
* `SymbolTable.recordWord`: enters a word of the program that has just been read.
* `SymbolTable.retire`: renames a function's row so that no name resolves to it.
-/

namespace OnePass.Names

open Lexical (Token TokenKind)

/-- What a retired function's name starts with. No word of a program contains it. -/
def retiredMark : String := "~dead~"

/-- A name, how it was read, the scope it belongs to and what it stands for. -/
structure Row where
  name : String
  kind : TokenKind
  scope : Nat
  meaning : Meaning
deriving DecidableEq, Inhabited

namespace Row

def isFunction (r : Row) : Bool := r.meaning.isFunction

def isRetired (r : Row) : Bool := retiredMark.toList.isPrefixOf r.name.toList

/-- The row under a retired name; one that has been retired keeps the name it has. -/
def retire (r : Row) : Row := if r.isRetired then r else { r with name := retiredMark ++ r.name }

end Row

/-- The rows entered so far and the scopes they belong to. -/
structure SymbolTable where
  rows : Array Row
  scopes : Scopes
deriving DecidableEq

namespace SymbolTable

/-- A row for every reserved word, in the outermost scope. -/
def ofKeywords (keywords : List String) : SymbolTable where
  rows := (keywords.map fun word => ⟨word, .keyword, Scopes.outermost, .unused⟩).toArray
  scopes := .initial

variable (t : SymbolTable)

def currentScope : Nat := t.scopes.current

def name? (row : Nat) : Option String := t.rows[row]?.map (·.name)

def meaning? (row : Nat) : Option Meaning := t.rows[row]?.map (·.meaning)

/-- The function a row stands for, if it does. -/
def function? (row : Nat) : Option FunctionInfo := (t.meaning? row).bind (·.function?)

/-- The cell of the variable on a row, if it is one and has one. -/
def cell? (row : Nat) : Option Nat := (t.meaning? row).bind (·.cell?)

def modifyRow (row : Nat) (f : Row → Row) : SymbolTable := { t with rows := t.rows.modify row f }

def setMeaning (row : Nat) (meaning : Meaning) : SymbolTable :=
  t.modifyRow row fun r => { r with meaning := meaning }

def enterScope (region : Region) : SymbolTable :=
  { t with scopes := t.scopes.enter region t.rows.size }

def leaveScope : SymbolTable := { t with scopes := t.scopes.leave t.rows.size }

/-- The rows owned by a scope, latest first. -/
def ownRows (scope : Nat) : List Nat :=
  match t.scopes.all[scope]? with
  | none => []
  | some s =>
    let count := s.endRow.getD t.rows.size - s.firstRow
    (List.range' s.firstRow count).reverse.filter fun i =>
      (t.rows[i]?.map (·.scope)) == some scope

/-- Whether row `i` carries the name, and a cell if one is asked for. -/
def carries (name : String) (withCell : Bool) (i : Nat) : Bool :=
  t.name? i == some name && (!withCell || (t.cell? i).isSome)

/-- The latest row of the name in the scope itself. -/
def latestIn (scope : Nat) (name : String) (withCell : Bool) : Option Nat :=
  (t.ownRows scope).find? (t.carries name withCell)

/-- **The row a name stands for,** seen from a scope: the latest of the scope itself or, if
`outward`, of the nearest scope around it that has one. With `withCell`, only rows with a cell
count. -/
def resolve (name : String) (scope : Nat) (withCell outward : Bool) : Option Nat :=
  let scopes := if outward then t.scopes.enclosing scope else [scope]
  scopes.findSome? fun s => t.latestIn s name withCell

/-- The functions of a name declared in the scope itself, latest first. -/
def functionsIn (scope : Nat) (name : String) : List Nat :=
  (t.ownRows scope).filter fun i => t.carries name false i && (t.function? i).isSome

/-- **The functions of a name visible from a scope,** nearest scope first and latest first within
a scope. -/
def visibleFunctions (scope : Nat) (name : String) : List Nat :=
  (t.scopes.enclosing scope).flatMap fun s => t.functionsIn s name

/-- The function of a name that is found first. -/
def nearestFunction (scope : Nat) (name : String) : Option Nat :=
  (t.visibleFunctions scope name).head?

/-- The function that a call with `count` arguments selects: of the functions of that name, the one
found first that has as many parameters. -/
def callee? (scope : Nat) (name : String) (count : Nat) : Option (Nat × FunctionInfo) :=
  (t.visibleFunctions scope name).findSome? fun row =>
    ((t.function? row).filter (·.arity = count)).map fun info => (row, info)

/-- Appends a fresh row in the current scope. -/
def appendRow (name : String) (kind : TokenKind) : Nat × SymbolTable :=
  (t.rows.size, { t with rows := t.rows.push ⟨name, kind, t.currentScope, .unused⟩ })

/-- The row of a name in the current scope, and the table with it: the latest one if `reuse`
accepts its meaning, else a fresh one. -/
def rowFor (name : String) (kind : TokenKind) (reuse : Meaning → Bool) : Nat × SymbolTable :=
  match t.latestIn t.currentScope name false with
  | some row => if (t.meaning? row).any reuse then (row, t) else t.appendRow name kind
  | none => t.appendRow name kind

/-- Enters a word that has just been read. A keyword keeps its row; a name keeps the row it has in
the current scope unless a function has taken that row. -/
def recordWord (word : String) (kind : TokenKind) : Nat × SymbolTable :=
  match if kind = .keyword then t.latestIn Scopes.outermost word false else none with
  | some row => (row, t)
  | none => t.rowFor word kind fun meaning => !meaning.isFunction

/-- Enters a token if it is a word. -/
def record (token : Token) : SymbolTable :=
  if token.isWord then (t.recordWord token.lexeme token.kind).2 else t

/-- Takes a function's row out of every lookup. -/
def retire (row : Nat) : SymbolTable := t.modifyRow row Row.retire

end SymbolTable

end OnePass.Names
