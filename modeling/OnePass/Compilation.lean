import OnePass.Derivation.Engine

/-!
# Compilations

A compilation checks its configuration, derives the text, ends the program with a call
of `main` and hands over everything it found. Code is only handed over if there is no
semantic error.

* `compile`: the compilation of a source text.
* `Compilation.hasErrors`, `Compilation.diagnostics`: what is wrong with the program.
-/

namespace OnePass

open Lexical (Token Rejection)

/-- A function that prints its argument, on one line with the text that follows it. -/
def outputDefinition : String := "def output ( x ) : print ( x ) ; return 0 ; ; "

/-- Everything a compilation found. -/
structure Compilation where
  tokens : List Token
  lexicalErrors : List Rejection
  syntaxErrors : List SyntaxError
  semanticErrors : List SemanticError
  /-- The symbol rows, in order. -/
  symbols : List Names.Row
  parseTree : String
  /-- A line for every program slot, unless there was a semantic error. -/
  code : Option (List String)
deriving DecidableEq

/-- The text that is compiled: the source, behind the definition of `output` if that is wanted. -/
def Config.preamble (c : Config) (source : String) : String :=
  if c.builtinOutput then outputDefinition ++ source else source

/-- The compilation of a derivation whose program has been ended. -/
def Derivation.Outcome.conclude (o : Derivation.Outcome) (g : Emission.Generator) :
    Compilation where
  tokens := o.scan.tokens
  lexicalErrors := o.scan.errors
  syntaxErrors := o.syntaxErrors
  semanticErrors := g.errors.toList
  symbols := g.symbols.rows.toList
  parseTree := o.tree.draw
  code := if g.errors.isEmpty then some g.memory.listing else none

/-- The compilation of a derivation, with the call of `main` behind it. -/
def Compilation.ofOutcome (callMain : Nat → Emission.Emit Unit) :
    Except Failure Derivation.Outcome → Except Failure Compilation
  | .error e => .error e
  | .ok o =>
    match callMain o.lastLine o.generator with
    | .error e _ => .error e
    | .ok _ g => .ok (o.conclude g)

/-- **The compilation of a source text.** -/
def compile (c : Config) (source : String) : Except Failure Compilation :=
  match c.validate with
  | .error e => .error (.config e)
  | .ok () =>
    Compilation.ofOutcome Emission.Strict.callMain (Derivation.parse c (c.preamble source))

namespace Compilation

variable (c : Compilation)

/-- Whether anything at all is wrong with the program. -/
def hasErrors : Bool :=
  !(c.lexicalErrors.isEmpty && c.syntaxErrors.isEmpty && c.semanticErrors.isEmpty)

/-- A line for every error: the lexical ones first, then those of the syntax, then the rest. -/
def diagnostics : List String :=
  c.lexicalErrors.map (fun e => s!"#{e.line} : lexical error, {e.display}")
    ++ c.syntaxErrors.map SyntaxError.display
    ++ c.semanticErrors.map SemanticError.display

end Compilation

end OnePass
