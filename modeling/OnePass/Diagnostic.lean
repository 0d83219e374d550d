/-!
# Diagnostics about a program

Errors of the program being compiled. They are collected and never stop the
compilation; each carries the line it is reported on.

* `SyntaxError`: what a derivation had to skip or leave out.
* `SemanticError`: what a program means by a name, a call or a jump does not exist.
-/

namespace OnePass

/-- How a derivation went wrong. -/
inductive SyntaxFault where
  /-- A symbol was given up without input of its own. -/
  | missing (symbol : String)
  /-- A token was skipped. -/
  | illegal (symbol : String)
  /-- The text ended inside a phrase. -/
  | unexpectedEnd
deriving DecidableEq

def SyntaxFault.message : SyntaxFault → String
  | .missing symbol => s!"missing {symbol}"
  | .illegal symbol => s!"illegal {symbol}"
  | .unexpectedEnd => "unexpected end of input"

/-- A syntax error, on the line of the token it was noticed at. -/
structure SyntaxError where
  line : Nat
  fault : SyntaxFault
deriving DecidableEq

def SyntaxError.display (e : SyntaxError) : String :=
  s!"#{e.line} : syntax error, {e.fault.message}"

/-- What a program asks for and does not have. -/
inductive SemanticFault where
  /-- A name without a cell or function. -/
  | undefined (name : String)
  | breakOutsideLoop
  | continueOutsideLoop
  /-- No function of the name takes that many arguments. -/
  | argumentCount (name : String)
  | noMain
  /-- The result of a function that returns none is used. -/
  | voidOperand
  /-- Two functions of one scope agree in name and number of parameters. -/
  | redefined (name : String)
deriving DecidableEq

def SemanticFault.message : SemanticFault → String
  | .undefined name => s!"'{name}' is not defined."
  | .breakOutsideLoop => "No 'while' found for 'break'."
  | .continueOutsideLoop => "No 'while' found for 'continue'."
  | .argumentCount name => s!"Mismatch in numbers of arguments of '{name}'."
  | .noMain => "main function not found."
  | .voidOperand => "Void type in operands."
  | .redefined name =>
    s!"Function '{name}' has already been defined with this number of arguments."

/-- A semantic error, on the line of the last token that had been read. -/
structure SemanticError where
  line : Nat
  fault : SemanticFault
deriving DecidableEq

def SemanticError.display (e : SemanticError) : String :=
  s!"#{e.line} : Semantic Error! {e.fault.message}"

end OnePass
