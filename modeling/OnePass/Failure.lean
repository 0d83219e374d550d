import OnePass.Access
import OnePass.Grammar.Prediction
import OnePass.Names.Meaning
import OnePass.Target.Memory

/-!
# What stops a compilation

A compilation that cannot go on answers one of these instead of a result. A full
memory zone is the only one that a program can bring about under a valid configuration.

* `Defect`: what should not be: a faulty grammar, a row of the wrong meaning, or an access that
  goes astray.
* `Failure`: a defect, a full memory or a configuration that makes no sense.
-/

namespace OnePass

/-- A state that no compilation can go on from, or a source that cannot be read. -/
inductive Defect where
  | ambiguousGrammar (conflict : Grammar.Conflict)
  /-- The reserved words do not contain the one whose row records the loops. -/
  | noLoopKeyword
  /-- The row that is to record the loops stands for something else. -/
  | noLoopRecord
  | notAFunction (name : String)
  | meaning (error : Names.MeaningError)
  /-- A row, scope, node, production or place in the text that is not there. -/
  | outside (access : Access)
  | unreadableSource
deriving DecidableEq

/-- The reserved word whose symbol row records the open loops. -/
def loopKeyword : String := "while"

def Defect.message : Defect → String
  | .ambiguousGrammar conflict => conflict.message
  | .noLoopKeyword => s!"keyword '{loopKeyword}' is missing from the symbol table"
  | .noLoopRecord => s!"row of '{loopKeyword}' carries no loop state"
  | .notAFunction name => s!"'{name}' is not a function"
  | .meaning error => error.message
  | .outside access => access.message
  | .unreadableSource => "Failed open source file"

/-- Why a compilation has no result. -/
inductive Failure where
  | defect (error : Defect)
  | memory (error : Target.MemoryError)
  | config (error : ConfigError)
deriving DecidableEq

/-- A computation that goes astray fails. -/
def Checked.orFail {α : Type} : Checked α → Except Failure α
  | .ok a => .ok a
  | .error astray => .error (.defect (.outside astray))

def Failure.message : Failure → String
  | .defect error => s!"CompilerInternalError: {error.message}"
  | .memory error => s!"Fatal memory error: {error.message}"
  | .config error => s!"Invalid configuration: {error.message}"

end OnePass
