import OnePass.Lexical.Token

/-!
# Grammar symbols

Terminals are the classes the grammar tells tokens apart by, nonterminals its
phrases, and actions the markers between them at which something is done.

* `Terminal.ofToken?`: the terminal of a token, if the grammar mentions it.
* `Terminal.all`, `Nonterminal.all`: every symbol in order, with `get_all` the law
  that a symbol's index is its place there.
-/

namespace OnePass.Grammar

open Lexical (Token TokenKind)

/-- What the grammar tells apart in a text. Identifiers and numbers are known by their class, all
else by its lexeme. -/
inductive Terminal where
  | identifier
  | number
  | semicolon
  | colon
  | comma
  | leftBracket
  | rightBracket
  | leftParen
  | rightParen
  | plus
  | minus
  | less
  | assign
  | equal
  | star
  | starStar
  | kwBreak
  | kwContinue
  | kwDef
  | kwElse
  | kwIf
  | kwReturn
  | kwWhile
  | kwGlobal
  | kwPrint
  /-- The end of the text. -/
  | endMarker
deriving DecidableEq, Inhabited

namespace Terminal

/-- How the terminal is written in trees and diagnostics. -/
def lexeme : Terminal → String
  | .identifier => "ID"
  | .number => "NUM"
  | .semicolon => ";"
  | .colon => ":"
  | .comma => ","
  | .leftBracket => "["
  | .rightBracket => "]"
  | .leftParen => "("
  | .rightParen => ")"
  | .plus => "+"
  | .minus => "-"
  | .less => "<"
  | .assign => "="
  | .equal => "=="
  | .star => "*"
  | .starStar => "**"
  | .kwBreak => "break"
  | .kwContinue => "continue"
  | .kwDef => "def"
  | .kwElse => "else"
  | .kwIf => "if"
  | .kwReturn => "return"
  | .kwWhile => "while"
  | .kwGlobal => "global"
  | .kwPrint => "print"
  | .endMarker => "$"

def all : List Terminal :=
  [.identifier, .number, .semicolon, .colon, .comma, .leftBracket, .rightBracket, .leftParen,
    .rightParen, .plus, .minus, .less, .assign, .equal, .star, .starStar, .kwBreak, .kwContinue,
    .kwDef, .kwElse, .kwIf, .kwReturn, .kwWhile, .kwGlobal, .kwPrint, .endMarker]

def index (t : Terminal) : Nat := t.ctorIdx

theorem get_all (t : Terminal) : all[t.index]? = some t := by cases t <;> rfl

/-- Whether the terminal is known by its lexeme. -/
def isLiteral : Terminal → Bool
  | .identifier | .number | .endMarker => false
  | _ => true

/-- The terminal a keyword or symbol stands for. -/
def ofLexeme? (lexeme : String) : Option Terminal :=
  all.find? fun t => t.isLiteral && t.lexeme == lexeme

/-- **The terminal of a token.** A keyword the grammar never mentions has none. -/
def ofToken? (token : Token) : Option Terminal :=
  match token.kind with
  | .identifier => some .identifier
  | .number => some .number
  | .endOfInput => some .endMarker
  | .keyword | .symbol => ofLexeme? token.lexeme

end Terminal

/-- The phrases of the language. -/
inductive Nonterminal where
  | program
  | statements
  | statement
  | simpleStatement
  | compoundStatement
  | assignmentOrCall
  /-- What follows the name an assignment or call statement starts with. -/
  | afterName
  /-- What may be assigned: a value or a list. -/
  | assigned
  | listRest
  | returnStatement
  | returnValue
  | globalStatement
  | printStatement
  | functionDefinition
  | parameters
  | parametersRest
  | ifStatement
  | elseBlock
  | iteration
  | relation
  | relationalOperator
  | expression
  | expressionRest
  | term
  | termRest
  | factor
  | power
  | atom
  | atomRest
  | index
  | arguments
  | argumentsRest
deriving DecidableEq, Inhabited

namespace Nonterminal

/-- How the nonterminal is written in trees and diagnostics. -/
def name : Nonterminal → String
  | .program => "Program"
  | .statements => "Statements"
  | .statement => "Statement"
  | .simpleStatement => "Simple_stmt"
  | .compoundStatement => "Compound_stmt"
  | .assignmentOrCall => "Assignment_Call"
  | .afterName => "B"
  | .assigned => "C"
  | .listRest => "List_Rest"
  | .returnStatement => "Return_stmt"
  | .returnValue => "Return_Value"
  | .globalStatement => "Global_stmt"
  | .printStatement => "Print_stmt"
  | .functionDefinition => "Function_def"
  | .parameters => "Params"
  | .parametersRest => "Params_Prime"
  | .ifStatement => "If_stmt"
  | .elseBlock => "Else_block"
  | .iteration => "Iteration_stmt"
  | .relation => "Relational_Expression"
  | .relationalOperator => "Relop"
  | .expression => "Expression"
  | .expressionRest => "Expression_Prime"
  | .term => "Term"
  | .termRest => "Term_Prime"
  | .factor => "Factor"
  | .power => "Power"
  | .atom => "Atom"
  | .atomRest => "Atom_Rest"
  | .index => "Index"
  | .arguments => "Arguments"
  | .argumentsRest => "Arguments_Prime"

def all : List Nonterminal :=
  [.program, .statements, .statement, .simpleStatement, .compoundStatement, .assignmentOrCall,
    .afterName, .assigned, .listRest, .returnStatement, .returnValue, .globalStatement,
    .printStatement, .functionDefinition, .parameters, .parametersRest, .ifStatement, .elseBlock,
    .iteration, .relation, .relationalOperator, .expression, .expressionRest, .term, .termRest,
    .factor, .power, .atom, .atomRest, .index, .arguments, .argumentsRest]

/-- The nonterminal's place in the list of all. -/
def place (n : Nonterminal) : Nat := n.ctorIdx

theorem get_all (n : Nonterminal) : all[n.place]? = some n := by cases n <;> rfl

end Nonterminal

/-- What is done at a place in a production. An action never consumes input. -/
inductive Action where
  | pushId
  | pushNumber
  | pushTarget
  | checkDefined
  | elementAddress
  | elementValue
  | listBegin
  | listItem
  | add
  | sub
  | mult
  | power
  | markEq
  | markLt
  | compare
  | assign
  | print
  | global
  | breakLoop
  | continueLoop
  | save
  | falseJump
  | falseJumpSave
  | jump
  | loopBegin
  | loopEnd
  | beginCall
  | takeArgument
  | dispatch
  | discardResult
  | enterFunction
  | param
  | paramsDone
  | returnValue
  | returnVoid
  | exitFunction
  | checkOverload
deriving DecidableEq, Inhabited

namespace Action

/-- The name of the marker. -/
def name : Action → String
  | .pushId => "push_id"
  | .pushNumber => "push_number"
  | .pushTarget => "push_target"
  | .checkDefined => "check_defined"
  | .elementAddress => "element_address"
  | .elementValue => "element_value"
  | .listBegin => "list_begin"
  | .listItem => "list_item"
  | .add => "add"
  | .sub => "sub"
  | .mult => "mult"
  | .power => "power"
  | .markEq => "mark_eq"
  | .markLt => "mark_lt"
  | .compare => "compare"
  | .assign => "assign"
  | .print => "print"
  | .global => "global"
  | .breakLoop => "break"
  | .continueLoop => "continue"
  | .save => "save"
  | .falseJump => "false_jump"
  | .falseJumpSave => "false_jump_save"
  | .jump => "jump"
  | .loopBegin => "loop_begin"
  | .loopEnd => "loop_end"
  | .beginCall => "begin_call"
  | .takeArgument => "take_argument"
  | .dispatch => "dispatch"
  | .discardResult => "discard_result"
  | .enterFunction => "enter_function"
  | .param => "param"
  | .paramsDone => "params_done"
  | .returnValue => "return_value"
  | .returnVoid => "return_void"
  | .exitFunction => "exit_function"
  | .checkOverload => "check_overload"

def all : List Action :=
  [.pushId, .pushNumber, .pushTarget, .checkDefined, .elementAddress, .elementValue, .listBegin,
    .listItem, .add, .sub, .mult, .power, .markEq, .markLt, .compare, .assign, .print, .global,
    .breakLoop, .continueLoop, .save, .falseJump, .falseJumpSave, .jump, .loopBegin, .loopEnd,
    .beginCall, .takeArgument, .dispatch, .discardResult, .enterFunction, .param, .paramsDone,
    .returnValue, .returnVoid, .exitFunction, .checkOverload]

theorem mem_all (a : Action) : a ∈ all := by cases a <;> simp [all]

end Action

/-- What the body of a production is made of. -/
inductive Symbol where
  | terminal (t : Terminal)
  | nonterminal (n : Nonterminal)
  | action (a : Action)
deriving DecidableEq, Inhabited

namespace Symbol

def isAction : Symbol → Bool
  | .action _ => true
  | _ => false

/-- How the symbol is written; an action has a `#` before its name. -/
def name : Symbol → String
  | .terminal t => t.lexeme
  | .nonterminal n => n.name
  | .action a => "#" ++ a.name

end Symbol

/-- A phrase and one way to build it. -/
structure Production where
  head : Nonterminal
  body : List Symbol
deriving DecidableEq, Inhabited

end OnePass.Grammar
