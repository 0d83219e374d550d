import OnePass.Derivation.Tree
import OnePass.Emission.Perform
import OnePass.Grammar.Language
import OnePass.Lexical.Scanner

/-!
# The derivation machine

The rules of a derivation, for a text whose tokens are all there and a tree that is changed as
a whole.

A stack of goals says what is still to come, the next token says how. A phrase is
replaced by the production the table predicts, a terminal is matched with the token,
an action is performed with the token matched last. The tree of the derivation grows
along.

A goal that does not fit the token is repaired on the spot. A terminal is given up; a
phrase is given up if the token can come after it, and else the token is skipped. Only
the end of the text inside a phrase ends the derivation early.

A word enters the symbol table when it becomes the next token, in the scope that is
current then.

* `Machine.step`: one step. `Machine.run`: steps until no goal is left.
* `parseBy`: the derivation of a whole text by a table.
-/

namespace OnePass.Derivation

open Emission (Generator)
open Grammar
open Lexical (Token)

/-- What is still to come, with the tree node it is to fill. -/
inductive Goal where
  /-- The end of the text. -/
  | textEnd
  | leaf (t : Terminal) (node : Nat)
  | phrase (n : Nonterminal) (node : Nat)
  | act (a : Action)
deriving DecidableEq

/-- The node a goal is to fill. -/
def Goal.node? : Goal → Option Nat
  | .leaf _ node | .phrase _ node => some node
  | _ => none

/-- The goals of a production's body, its symbols at the nodes from `next` on. -/
def goalsOf (next : Nat) : List Symbol → List Goal
  | [] => []
  | .terminal t :: rest => .leaf t next :: goalsOf (next + 1) rest
  | .nonterminal n :: rest => .phrase n next :: goalsOf (next + 1) rest
  | .action a :: rest => .act a :: goalsOf next rest

/-- The label of the node that stands for an empty production. -/
def emptyLabel : String := "epsilon"

/-- The labels of the nodes for a production's body. -/
def labelsOf (body : List Symbol) : List String :=
  if body.all Symbol.isAction then [emptyLabel]
  else (body.filter fun s => !s.isAction).map Symbol.name

/-- A derivation under way. -/
structure Machine where
  generator : Generator
  tree : Tree
  /-- What is still to come, the next goal first. -/
  goals : List Goal
  /-- The next token. -/
  lookahead : Token
  /-- The tokens behind the next one. -/
  upcoming : List Token
  /-- What is seen once no token is left. -/
  endMarker : Token
  /-- The lexeme of the token matched last. -/
  lastLexeme : String
  /-- The line of the token matched last. -/
  lastLine : Nat
  errors : Array SyntaxError

namespace Machine

variable (m : Machine)

/-- Passes over the next token, and enters the one behind it if that is a word. -/
def advance : Machine :=
  match m.upcoming with
  | [] => { m with lookahead := m.endMarker }
  | t :: rest =>
    { m with
      lookahead := t
      upcoming := rest
      generator := { m.generator with symbols := m.generator.symbols.record t } }

/-- The start of a derivation: a program is to come, and then the end of the text. -/
def start (config : Config) (tokens : List Token) (endMarker : Token) : Machine :=
  advance {
    generator := .ofConfig config
    tree := .ofLabel Grammar.start.name
    goals := [.phrase Grammar.start Tree.root, .textEnd]
    lookahead := endMarker
    upcoming := tokens
    endMarker := endMarker
    lastLexeme := ""
    lastLine := 1
    errors := #[] }

/-- Notes an error on the line of the next token. -/
def complain (fault : SyntaxFault) : Machine :=
  { m with errors := m.errors.push ⟨m.lookahead.line, fault⟩ }

/-- Drops the node of a goal that is given up. -/
def drop (goal : Goal) : Machine :=
  match goal.node? with
  | some node => { m with tree := m.tree.drop node }
  | none => m

/-- Skips the next token, and keeps the goals. -/
def skip : Machine := (m.complain (.illegal m.lookahead.className)).advance

/-- Gives up a goal that the next token can come after. -/
def giveUp (goal : Goal) (name : String) : Machine := (m.complain (.missing name)).drop goal

/-- Gives up all goals at the end of the text. -/
def abandon : Machine :=
  let m' := m.goals.foldl drop (m.complain .unexpectedEnd)
  { m' with goals := [] }

/-- Matches the next token with a terminal's node. -/
def shift (node : Nat) : Machine :=
  advance { m with
    tree := m.tree.relabel node m.lookahead.display
    lastLexeme := m.lookahead.lexeme
    lastLine := m.lookahead.line }

/-- Puts the body of a production in place of its head. -/
def expand (node : Nat) (body : List Symbol) : Machine :=
  { m with
    tree := m.tree.addChildren node (labelsOf body)
    goals := goalsOf m.tree.next body ++ m.goals }

/-- Performs an action with the token matched last. -/
def act (a : Action) : Except Failure Machine :=
  match Emission.perform a m.lastLexeme m.lastLine m.generator with
  | .ok _ g => .ok { m with generator := g }
  | .error e _ => .error e

/-- The body that a phrase is replaced by on the next token. -/
def predicted? (table : Table) (n : Nonterminal) : Option (List Symbol) := do
  let t ← Terminal.ofToken? m.lookahead
  let index ← table.production? n t
  let production ← productions[index]?
  return production.body

/-- Whether the next token can come after a phrase. -/
def canFollow (table : Table) (n : Nonterminal) : Bool :=
  (Terminal.ofToken? m.lookahead).any (table.follows n)

/-- **One step,** for the goal on top of the others. -/
def step (table : Table) (goal : Goal) (rest : List Goal) : Except Failure Machine :=
  let below := { m with goals := rest }
  match goal with
  | .act a => below.act a
  | .textEnd =>
    if m.lookahead.isEndOfInput then
      .ok { below with tree := m.tree.addChild Tree.root Terminal.endMarker.lexeme }
    else .ok m.skip
  | .leaf t node =>
    if Terminal.ofToken? m.lookahead = some t then .ok (below.shift node)
    else .ok (below.giveUp goal t.lexeme)
  | .phrase n node =>
    match m.predicted? table n with
    | some body => .ok (below.expand node body)
    | none =>
      -- a phrase that the token can follow is missing; else the token is too much
      if m.canFollow table n then .ok (below.giveUp goal n.name)
      else if m.lookahead.isEndOfInput then .ok m.abandon
      else .ok m.skip

/-- Steps until no goal is left, at most `bound` of them. -/
def run (table : Table) (bound : Nat) (m : Machine) : Except Failure Machine :=
  match bound, m.goals with
  | 0, _ => .ok m
  | _, [] => .ok m
  | bound + 1, goal :: rest =>
    match m.step table goal rest with
    | .ok next => run table bound next
    | .error e => .error e

end Machine

/-- How many steps a derivation of so many tokens takes at most: between two tokens there are only
a few expansions, each with a few goals. -/
def stepBound (tokens : Nat) : Nat := 1000 * (tokens + 2)

/-- What a derivation leaves behind. -/
structure Outcome where
  scan : Lexical.Scan
  syntaxErrors : List SyntaxError
  tree : Tree
  generator : Generator
  /-- The line of the end of the text. -/
  lastLine : Nat

/-- What a derivation of a scanned text leaves behind, if its machine went all the way. -/
def Outcome.ofRun (scan : Lexical.Scan) : Except Failure Machine → Except Failure Outcome
  | .error e => .error e
  | .ok m => .ok ⟨scan, m.errors.toList, m.tree, m.generator, m.lookahead.line⟩

/-- The machine that a text begins with. -/
def Machine.begun (config : Config) (source : String) : Machine :=
  let scan := Lexical.scan config.keywords source
  start config scan.tokens scan.endMarker

/-- The derivation of a text by a table, if there is one. -/
def parseBy (config : Config) (source : String) :
    Except Conflict Table → Except Failure Outcome
  | .error conflict => .error (.defect (.ambiguousGrammar conflict))
  | .ok table =>
    let scan := Lexical.scan config.keywords source
    Outcome.ofRun scan ((Machine.begun config source).run table (stepBound scan.tokens.length))

end OnePass.Derivation
