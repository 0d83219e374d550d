import OnePass.Grammar.Symbol
import OnePass.Emission.Call
import OnePass.Emission.Value

/-!
# Performing actions

* `perform`: what an action does, given the token that was read last.
-/

namespace OnePass.Emission

/-- **What an action does.** The lexeme and the line are those of the token read last. -/
def perform (action : Grammar.Action) (lexeme : String) (line : Nat) : Emit Unit :=
  match action with
  | .pushId => readName lexeme
  | .pushNumber => readNumber lexeme
  | .pushTarget => assignTo lexeme
  | .checkDefined => requireCell lexeme line
  | .elementAddress => element line false
  | .elementValue => element line true
  | .listBegin => startList
  | .listItem => storeItem line
  | .add => combine .add line
  | .sub => combine .sub line
  | .mult => combine .mult line
  | .power => raise line
  | .markEq => push (.immediate 0)
  | .markLt => push (.immediate 1)
  | .compare => relate line
  | .assign => store line
  | .print => printValue line
  | .global => bindGlobal lexeme line
  | .breakLoop => breakLoop line
  | .continueLoop => continueLoop line
  | .save => holdSlot
  | .falseJump => endIf
  | .falseJumpSave => startElse
  | .jump => endElse
  | .loopBegin => startLoop
  | .loopEnd => endLoop
  | .beginCall => startCall lexeme
  | .takeArgument => countArgument
  | .dispatch => resolveCall line
  | .discardResult => dropResult
  | .enterFunction => startFunction lexeme
  | .param => addParameter lexeme
  | .paramsDone => publish
  | .returnValue => returnWith line
  | .returnVoid => returnNothing
  | .exitFunction => endFunction
  | .checkOverload => retireRivals line

end OnePass.Emission
