import OnePass.Derivation.Arena
import OnePass.Derivation.Machine
import OnePass.Emission.Strict
import OnePass.Lexical.Reader

/-!
# Derivations

The engine reads a token whenever one is asked for, keeps its tree in an array of nodes, and finds
rows, scopes, nodes and productions by their number. One that is not there stops the derivation,
and so does a derivation that does not come to its end.

The goals, and what becomes of one that does not fit the token, are those of the derivation
machine, which has all tokens before it and changes a tree as a whole.

* `Engine.step`: one step. `Engine.run`: steps until no goal is left.
* `parse`: the derivation of a whole text.
-/

namespace OnePass.Derivation

open Emission (Generator)
open Grammar
open Lexical (Reader Token)

/-- A derivation of the text that the reader goes over. -/
structure Engine where
  reader : Reader
  generator : Generator
  arena : Arena
  /-- What is still to come, the next goal first. -/
  goals : List Goal
  lookahead : Token
  /-- The lexeme of the token matched last. -/
  lastLexeme : String
  /-- The line of the token matched last. -/
  lastLine : Nat
  errors : Array SyntaxError

/-- The rule with a number. -/
def productionAt (index : Nat) : Checked Production :=
  match productions[index]? with
  | some production => .ok production
  | none => .error (.production index)

/-- The goals of a production's body. Each symbol but the actions gets a node, the next child of
`parent`. -/
def enter (parent : Nat) (body : List Symbol) (a : Arena) : Checked (List Goal × Arena) :=
  match body with
  | [] => return ([], a)
  | .action act :: rest => do
    let (goals, last) ← enter parent rest a
    return (.act act :: goals, last)
  | .terminal t :: rest => do
    let (node, grown) ← a.addChild parent t.lexeme
    let (goals, last) ← enter parent rest grown
    return (.leaf t node :: goals, last)
  | .nonterminal n :: rest => do
    let (node, grown) ← a.addChild parent n.name
    let (goals, last) ← enter parent rest grown
    return (.phrase n node :: goals, last)

/-- The goals of a production's body, which gets a node of its own if it is empty. -/
def plant (parent : Nat) (body : List Symbol) (a : Arena) : Checked (List Goal × Arena) := do
  if body.all Symbol.isAction then
    let (_, grown) ← a.addChild parent emptyLabel
    enter parent body grown
  else enter parent body a

namespace Engine

variable (e : Engine)

/-- Reads on to the next token, and enters it if it is a word. -/
def advance : Checked Engine := do
  let (token, reader) ← e.reader.pull
  let symbols ← Names.Strict.record e.generator.symbols token
  return { e with
    reader := reader
    generator := { e.generator with symbols := symbols }
    lookahead := token }

/-- The start of a derivation: a program is to come, and then the end of the text. -/
def begin (config : Config) (source : String) : Checked Engine :=
  advance {
    reader := .start config.keywords source
    generator := .ofConfig config
    arena := .ofLabel Grammar.start.name
    goals := [.phrase Grammar.start Tree.root, .textEnd]
    lookahead := .endOfInput 1 0
    lastLexeme := ""
    lastLine := 1
    errors := #[] }

/-- Notes an error on the line of the next token. -/
def complain (fault : SyntaxFault) : Engine :=
  { e with errors := e.errors.push ⟨e.lookahead.line, fault⟩ }

/-- Takes the node of a goal that is given up out of the tree. -/
def drop (goal : Goal) : Checked Engine := do
  match goal.node? with
  | some node => return { e with arena := ← e.arena.detach node }
  | none => return e

/-- Skips the next token, and keeps the goals. -/
def skip : Checked Engine := (e.complain (.illegal e.lookahead.className)).advance

/-- Gives up a goal that the next token can come after. -/
def giveUp (goal : Goal) (name : String) : Checked Engine := (e.complain (.missing name)).drop goal

/-- Gives up all goals at the end of the text. -/
def abandon : Checked Engine := do
  let bare ← e.goals.foldlM drop (e.complain .unexpectedEnd)
  return { bare with goals := [] }

/-- Matches the next token with a terminal's node. -/
def shift (node : Nat) : Checked Engine := do
  let arena ← e.arena.setLabel node e.lookahead.display
  advance { e with
    arena := arena
    lastLexeme := e.lookahead.lexeme
    lastLine := e.lookahead.line }

/-- Puts the body of a production in place of its head. -/
def expand (index node : Nat) : Checked Engine := do
  let production ← productionAt index
  let (goals, arena) ← plant node production.body e.arena
  return { e with arena := arena, goals := goals ++ e.goals }

/-- Marks the end of the text in the tree. -/
def close : Checked Engine := do
  let (_, arena) ← e.arena.addChild Tree.root Terminal.endMarker.lexeme
  return { e with arena := arena }

/-- Performs an action with the token matched last. -/
def act (a : Action) : Except Failure Engine :=
  match Emission.Strict.perform a e.lastLexeme e.lastLine e.generator with
  | .ok _ g => .ok { e with generator := g }
  | .error failure _ => .error failure

/-- **One step,** for the goal on top of the others. -/
def step (table : Table) (goal : Goal) (rest : List Goal) : Except Failure Engine :=
  let below := { e with goals := rest }
  let key := Terminal.ofToken? e.lookahead
  match goal with
  | .act a => below.act a
  | .textEnd => Checked.orFail <| if e.lookahead.isEndOfInput then below.close else e.skip
  | .leaf t node =>
    Checked.orFail <| if key = some t then below.shift node else below.giveUp goal t.lexeme
  | .phrase n node =>
    match key.bind (table.production? n) with
    | some index => Checked.orFail (below.expand index node)
    | none =>
      Checked.orFail <|
        if key.any (table.follows n) then below.giveUp goal n.name
        else if e.lookahead.isEndOfInput then e.abandon
        else e.skip

/-- Steps until no goal is left. It takes no more than `bound` of them. -/
def run (table : Table) (bound : Nat) (e : Engine) : Except Failure Engine :=
  match bound, e.goals with
  | _, [] => .ok e
  | 0, _ => Checked.orFail (.error .standstill)
  | bound + 1, goal :: rest =>
    match e.step table goal rest with
    | .ok next => run table bound next
    | .error failure => .error failure

/-- What is left when no goal is: the record of the reader, and the tree from its root on. -/
def outcome : Checked Outcome := do
  let tree ← e.arena.tree
  return {
    scan :=
      ⟨e.reader.tokens.toList, e.reader.errors.toList, .endOfInput e.reader.line e.reader.cursor⟩
    syntaxErrors := e.errors.toList
    tree := tree
    generator := e.generator
    lastLine := e.lookahead.line }

end Engine

/-- The derivation of a text by a table, if there is one. -/
def deriveBy (config : Config) (source : String) :
    Except Conflict Table → Except Failure Outcome
  | .error conflict => .error (.defect (.ambiguousGrammar conflict))
  | .ok table => do
    let first ← (Engine.begin config source).orFail
    let last ← first.run table (stepBound source.length)
    last.outcome.orFail

/-- **The derivation of a text,** with its actions performed. -/
def parse (config : Config) (source : String) : Except Failure Outcome :=
  deriveBy config source table

end OnePass.Derivation
