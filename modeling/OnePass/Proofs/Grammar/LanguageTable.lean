import OnePass.Grammar.Language
import OnePass.Proofs.Grammar.Derives

/-!
# The prediction table of the language

What the loops find out about the phrases of the language, and the table it gives.
The grammar is accepted: no two productions of a phrase share a lookahead.

* `phraseFacts`: what each phrase can begin with and what can follow it.
* `ofProductions_productions`: the loops arrive there.
* `table_eq_ok`: the table.
-/

namespace OnePass.Grammar

namespace TerminalSet

/-- The set of the terminals in a list. -/
def ofList (ts : List Terminal) : TerminalSet := ts.foldr (fun t s => singleton t ∪ s) empty

end TerminalSet

open TerminalSet (ofList)

/-- What an assignment, a call or a simple statement can begin with. -/
def simpleFirst : List Terminal :=
  [.identifier, .kwBreak, .kwContinue, .kwReturn, .kwGlobal, .kwPrint]

def compoundFirst : List Terminal := [.kwDef, .kwIf, .kwWhile]

/-- What an expression can begin with. -/
def valueFirst : List Terminal := [.identifier, .number]

/-- What can follow an expression. -/
def valueFollow : List Terminal :=
  [.semicolon, .colon, .comma, .rightBracket, .rightParen, .less, .equal]

/-- **What is known of each phrase of the language:** whether it can be empty, what it can begin
with and what can follow it. -/
def phraseFacts : Nonterminal → PhraseFacts
  | .program => ⟨true, ofList (simpleFirst ++ compoundFirst), ofList [.endMarker]⟩
  | .statements =>
    ⟨true, ofList (simpleFirst ++ compoundFirst), ofList [.semicolon, .kwElse, .endMarker]⟩
  | .statement => ⟨false, ofList (simpleFirst ++ compoundFirst), ofList [.semicolon]⟩
  | .simpleStatement => ⟨false, ofList simpleFirst, ofList [.semicolon]⟩
  | .compoundStatement => ⟨false, ofList compoundFirst, ofList [.semicolon]⟩
  | .assignmentOrCall => ⟨false, ofList [.identifier], ofList [.semicolon]⟩
  | .afterName => ⟨false, ofList [.leftBracket, .leftParen, .assign], ofList [.semicolon]⟩
  | .assigned => ⟨false, ofList (.leftBracket :: valueFirst), ofList [.semicolon]⟩
  | .listRest => ⟨true, ofList [.comma], ofList [.rightBracket]⟩
  | .returnStatement => ⟨false, ofList [.kwReturn], ofList [.semicolon]⟩
  | .returnValue => ⟨true, ofList valueFirst, ofList [.semicolon]⟩
  | .globalStatement => ⟨false, ofList [.kwGlobal], ofList [.semicolon]⟩
  | .printStatement => ⟨false, ofList [.kwPrint], ofList [.semicolon]⟩
  | .functionDefinition => ⟨false, ofList [.kwDef], ofList [.semicolon]⟩
  | .parameters => ⟨true, ofList [.identifier], ofList [.rightParen]⟩
  | .parametersRest => ⟨true, ofList [.comma], ofList [.rightParen]⟩
  | .ifStatement => ⟨false, ofList [.kwIf], ofList [.semicolon]⟩
  | .elseBlock => ⟨true, ofList [.kwElse], ofList [.semicolon]⟩
  | .iteration => ⟨false, ofList [.kwWhile], ofList [.semicolon]⟩
  | .relation => ⟨false, ofList valueFirst, ofList [.colon, .rightParen]⟩
  | .relationalOperator => ⟨false, ofList [.less, .equal], ofList valueFirst⟩
  | .expression => ⟨false, ofList valueFirst, ofList valueFollow⟩
  | .expressionRest => ⟨true, ofList [.plus, .minus], ofList valueFollow⟩
  | .term => ⟨false, ofList valueFirst, ofList ([.plus, .minus] ++ valueFollow)⟩
  | .termRest => ⟨true, ofList [.star], ofList ([.plus, .minus] ++ valueFollow)⟩
  | .factor => ⟨false, ofList valueFirst, ofList ([.plus, .minus, .star] ++ valueFollow)⟩
  | .power => ⟨true, ofList [.starStar], ofList ([.plus, .minus, .star] ++ valueFollow)⟩
  | .atom => ⟨false, ofList valueFirst, ofList ([.plus, .minus, .star, .starStar] ++ valueFollow)⟩
  | .atomRest =>
    ⟨true, ofList [.leftBracket, .leftParen],
      ofList ([.plus, .minus, .star, .starStar] ++ valueFollow)⟩
  | .index =>
    ⟨true, ofList [.leftBracket], ofList ([.plus, .minus, .star, .starStar] ++ valueFollow)⟩
  | .arguments => ⟨true, ofList valueFirst, ofList [.rightParen]⟩
  | .argumentsRest => ⟨true, ofList [.comma], ofList [.rightParen]⟩

/-- What is known of all phrases of the language. -/
def languageFacts : Facts where
  rows := Nonterminal.all.map phraseFacts
  complete := List.length_map ..

/-- **This is what the loops end with.** -/
theorem ofProductions_productions : Facts.ofProductions productions start = languageFacts := by
  decide +kernel

/-- The predictions of the rules of the language. -/
def predictions : List Prediction :=
  productions.map fun p => ⟨p.head, languageFacts.lookaheads p.head p.body⟩

theorem firstClash?_predictions : Table.firstClash? predictions = none := by
  decide +kernel

theorem build_eq_of_facts {rules : List Production} {start : Nonterminal} {k : Facts}
    (hk : Facts.ofProductions rules start = k)
    (h : Table.firstClash? (rules.map fun p => ⟨p.head, k.lookaheads p.head p.body⟩) = none) :
    Table.build rules start =
      .ok ⟨rules.map fun p => ⟨p.head, k.lookaheads p.head p.body⟩, k⟩ := by
  subst hk
  unfold Table.build
  dsimp only
  rw [h]

/-- **The language has a table:** no two productions of a phrase share a lookahead. -/
theorem table_eq_ok : table = .ok ⟨predictions, languageFacts⟩ :=
  build_eq_of_facts ofProductions_productions firstClash?_predictions

end OnePass.Grammar
