import OnePass.Grammar.Prediction

/-!
# The language

Statements end in semicolons, blocks open with a colon and close with the semicolon
of their statement. Markers stand where all they need has been read. Expressions are
sums of products of powers; a power takes the power to its right as its exponent.

* `productions`: the rules, in the order the prediction table numbers them.
* `start`: the phrase of a whole text.
* `table`: which production to expand on which terminal.
-/

namespace OnePass.Grammar

private abbrev T := Symbol.terminal
private abbrev N := Symbol.nonterminal
private abbrev A := Symbol.action

/-- A text is a program. -/
def start : Nonterminal := .program

/-- Programs and the kinds of statements. -/
def statementRules : List Production := [
  ⟨.program, [N .statements]⟩,
  ⟨.statements, [N .statement, T .semicolon, N .statements]⟩,
  ⟨.statements, []⟩,
  ⟨.statement, [N .compoundStatement]⟩,
  ⟨.statement, [N .simpleStatement]⟩,
  ⟨.simpleStatement, [N .assignmentOrCall]⟩,
  ⟨.simpleStatement, [N .returnStatement]⟩,
  ⟨.simpleStatement, [N .globalStatement]⟩,
  ⟨.simpleStatement, [N .printStatement]⟩,
  ⟨.simpleStatement, [T .kwBreak, A .breakLoop]⟩,
  ⟨.simpleStatement, [T .kwContinue, A .continueLoop]⟩,
  ⟨.compoundStatement, [N .functionDefinition]⟩,
  ⟨.compoundStatement, [N .ifStatement]⟩,
  ⟨.compoundStatement, [N .iteration]⟩]

/-- Statements that fit on a line. -/
def simpleRules : List Production := [
  ⟨.assignmentOrCall, [T .identifier, N .afterName]⟩,
  ⟨.afterName, [A .pushTarget, T .assign, N .assigned, A .assign]⟩,
  ⟨.afterName, [A .checkDefined, A .pushId, T .leftBracket, N .expression, T .rightBracket,
    A .elementAddress, T .assign, N .assigned, A .assign]⟩,
  ⟨.afterName, [A .beginCall, T .leftParen, N .arguments, T .rightParen, A .dispatch,
    A .discardResult]⟩,
  ⟨.assigned, [N .expression]⟩,
  ⟨.assigned, [T .leftBracket, A .listBegin, N .expression, A .listItem, N .listRest,
    T .rightBracket]⟩,
  ⟨.listRest, [T .comma, N .expression, A .listItem, N .listRest]⟩,
  ⟨.listRest, []⟩,
  ⟨.returnStatement, [T .kwReturn, N .returnValue]⟩,
  ⟨.returnValue, [N .expression, A .returnValue]⟩,
  ⟨.returnValue, [A .returnVoid]⟩,
  ⟨.globalStatement, [T .kwGlobal, T .identifier, A .global]⟩,
  ⟨.printStatement, [T .kwPrint, T .leftParen, N .expression, T .rightParen, A .print]⟩]

/-- Functions, branches and loops. -/
def compoundRules : List Production := [
  ⟨.functionDefinition, [T .kwDef, T .identifier, A .enterFunction, T .leftParen, N .parameters,
    T .rightParen, A .paramsDone, T .colon, N .statements, A .exitFunction, A .checkOverload]⟩,
  ⟨.parameters, [T .identifier, A .param, N .parametersRest]⟩,
  ⟨.parameters, []⟩,
  ⟨.parametersRest, [T .comma, T .identifier, A .param, N .parametersRest]⟩,
  ⟨.parametersRest, []⟩,
  ⟨.ifStatement, [T .kwIf, N .relation, A .save, T .colon, N .statements, N .elseBlock]⟩,
  ⟨.elseBlock, [T .kwElse, A .falseJumpSave, T .colon, N .statements, A .jump]⟩,
  ⟨.elseBlock, [A .falseJump]⟩,
  ⟨.iteration, [T .kwWhile, A .loopBegin, T .leftParen, N .relation, T .rightParen, A .save,
    N .statements, A .loopEnd]⟩]

/-- Relations and expressions. -/
def expressionRules : List Production := [
  ⟨.relation, [N .expression, N .relationalOperator, N .expression, A .compare]⟩,
  ⟨.relationalOperator, [T .equal, A .markEq]⟩,
  ⟨.relationalOperator, [T .less, A .markLt]⟩,
  ⟨.expression, [N .term, N .expressionRest]⟩,
  ⟨.expressionRest, [T .plus, N .term, A .add, N .expressionRest]⟩,
  ⟨.expressionRest, [T .minus, N .term, A .sub, N .expressionRest]⟩,
  ⟨.expressionRest, []⟩,
  ⟨.term, [N .factor, N .termRest]⟩,
  ⟨.termRest, [T .star, N .factor, A .mult, N .termRest]⟩,
  ⟨.termRest, []⟩,
  ⟨.factor, [N .atom, N .power]⟩,
  ⟨.power, [T .starStar, N .factor, A .power]⟩,
  ⟨.power, []⟩,
  ⟨.atom, [T .number, A .pushNumber]⟩,
  ⟨.atom, [T .identifier, N .atomRest]⟩,
  ⟨.atomRest, [A .beginCall, T .leftParen, N .arguments, T .rightParen, A .dispatch]⟩,
  ⟨.atomRest, [A .checkDefined, A .pushId, N .index]⟩,
  ⟨.index, [T .leftBracket, N .expression, T .rightBracket, A .elementValue]⟩,
  ⟨.index, []⟩,
  ⟨.arguments, [N .expression, A .takeArgument, N .argumentsRest]⟩,
  ⟨.arguments, []⟩,
  ⟨.argumentsRest, [T .comma, N .expression, A .takeArgument, N .argumentsRest]⟩,
  ⟨.argumentsRest, []⟩]

/-- **The rules of the language.** -/
def productions : List Production :=
  statementRules ++ simpleRules ++ compoundRules ++ expressionRules

/-- The prediction table of the language. -/
def table : Except Conflict Table := Table.build productions start

end OnePass.Grammar
