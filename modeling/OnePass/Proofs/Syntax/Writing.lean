import OnePass.Proofs.Derivation.Acceptance
import OnePass.Proofs.Derivation.Trace

/-!
# Trees written as derivations

A tree that is grouped as the grammar does is derived along its marks. So what an accepted
text spells is a block, and every block that a text spells is what it is derived along.

* `Expr.Derived`: what a value of some level is derived from. `Expr.Graded.derived`.
* `Statement.Graded.derives`, `derives_block`: statements and whole texts.
* `trace_of_spelled`: a text that spells a block has a trace along its marks.
-/

namespace OnePass.Syntax

open Grammar (Action Derives Mark Nonterminal Production Terminal productions)

/-- A phrase that derives marks. -/
abbrev Phrase (n : Nonterminal) (w : List Mark) : Prop := Derives productions [.nonterminal n] w

section Derives

variable {p : Production} {n : Nonterminal} {t : Terminal} {symbols : List Grammar.Symbol}
  {u w : List Mark}

/-- A phrase derives what the body of one of its rules does. -/
theorem phrase_of_body (hp : p ∈ productions) (h : Derives productions p.body w) :
    Phrase p.head w := by
  have hphrase := Derives.phrase hp h .nil
  rwa [List.append_nil] at hphrase

/-- A phrase before other symbols. -/
theorem derives_phrase (hu : Phrase n u) (h : Derives productions symbols w) :
    Derives productions (.nonterminal n :: symbols) (u ++ w) := hu.append h

/-- A terminal that is known by its lexeme. -/
theorem derives_word (h : Derives productions symbols w) :
    Derives productions (.terminal t :: symbols) (word t :: w) := .terminal t.lexeme h

/-- A name. -/
theorem derives_name {x : String} (h : Derives productions symbols w) :
    Derives productions (.terminal .identifier :: symbols) (nameMark x :: w) := .terminal x h

end Derives

/-- **What a value is derived from,** by its level. What is grouped from the left goes on. -/
structure Expr.Derived (e : Expr) : Prop where
  atom : e.level = 3 → Phrase .atom e.marks
  factor : 2 ≤ e.level → Phrase .factor e.marks
  term : 1 ≤ e.level → ∀ w, Phrase .termRest w →
    Derives productions [.nonterminal .factor, .nonterminal .termRest] (e.marks ++ w)
  expression : ∀ w, Phrase .expressionRest w →
    Derives productions [.nonterminal .term, .nonterminal .expressionRest] (e.marks ++ w)

namespace Expr.Derived

variable {e : Expr}

theorem phrase_term (h : e.Derived) (hlevel : 1 ≤ e.level) : Phrase .term e.marks := by
  have hrest : Phrase .termRest [] := phrase_of_body (p := ⟨.termRest, []⟩) (by decide) .nil
  have hbody := h.term hlevel [] hrest
  rw [List.append_nil] at hbody
  exact phrase_of_body
    (p := ⟨.term, [.nonterminal .factor, .nonterminal .termRest]⟩) (by decide) hbody

theorem phrase_expression (h : e.Derived) : Phrase .expression e.marks := by
  have hrest : Phrase .expressionRest [] :=
    phrase_of_body (p := ⟨.expressionRest, []⟩) (by decide) .nil
  have hbody := h.expression [] hrest
  rw [List.append_nil] at hbody
  exact phrase_of_body
    (p := ⟨.expression, [.nonterminal .term, .nonterminal .expressionRest]⟩) (by decide) hbody

/-- A sum of more than one. -/
theorem of_expression (hlevel : e.level = 0) (h : ∀ w, Phrase .expressionRest w →
    Derives productions [.nonterminal .term, .nonterminal .expressionRest] (e.marks ++ w)) :
    e.Derived where
  atom h3 := by omega
  factor h2 := by omega
  term h1 := by omega
  expression := h

/-- A product is a sum of one. -/
theorem of_term (hlevel : e.level = 1) (h : ∀ w, Phrase .termRest w →
    Derives productions [.nonterminal .factor, .nonterminal .termRest] (e.marks ++ w)) :
    e.Derived where
  atom h3 := by omega
  factor h2 := by omega
  term _ := h
  expression w hw := by
    have hrest : Phrase .termRest [] := phrase_of_body (p := ⟨.termRest, []⟩) (by decide) .nil
    have hbody := h [] hrest
    rw [List.append_nil] at hbody
    exact derives_phrase (phrase_of_body
      (p := ⟨.term, [.nonterminal .factor, .nonterminal .termRest]⟩) (by decide) hbody) hw

/-- A power, or a value without operators, is a product of one. -/
theorem of_factor (hatom : e.level = 3 → Phrase .atom e.marks) (h : Phrase .factor e.marks) :
    e.Derived where
  atom := hatom
  factor _ := h
  term _ w hw := derives_phrase h hw
  expression w hw := by
    have hrest : Phrase .termRest [] := phrase_of_body (p := ⟨.termRest, []⟩) (by decide) .nil
    have hbody := derives_phrase h hrest
    rw [List.append_nil] at hbody
    exact derives_phrase (phrase_of_body
      (p := ⟨.term, [.nonterminal .factor, .nonterminal .termRest]⟩) (by decide) hbody) hw

/-- A value without operators is a power of one. -/
theorem of_atom (h : Phrase .atom e.marks) : e.Derived := by
  have hrest : Phrase .power [] := phrase_of_body (p := ⟨.power, []⟩) (by decide) .nil
  have hbody := derives_phrase h hrest
  rw [List.append_nil] at hbody
  exact of_factor (fun _ => h) (phrase_of_body
    (p := ⟨.factor, [.nonterminal .atom, .nonterminal .power]⟩) (by decide) hbody)

/-- What stands behind a name. -/
theorem of_name {x : String} {w : List Mark} (hmarks : e.marks = nameMark x :: w)
    (h : Phrase .atomRest w) : e.Derived := by
  refine of_atom ?_
  rw [hmarks]
  exact phrase_of_body (p := ⟨.atom, [.terminal .identifier, .nonterminal .atomRest]⟩) (by decide)
    (derives_name h)

end Expr.Derived

section Rows

/-- The rest of a row of arguments. -/
theorem derives_restArguments : ∀ {es : List Expr}, (∀ e ∈ es, e.Derived) →
    Phrase .argumentsRest (restMarks .takeArgument es)
  | [], _ => phrase_of_body (p := ⟨.argumentsRest, []⟩) (by decide) .nil
  | _ :: _, h => by
    obtain ⟨he, hrest⟩ := List.forall_mem_cons.1 h
    exact phrase_of_body (p := ⟨.argumentsRest, [.terminal .comma, .nonterminal .expression,
      .action .takeArgument, .nonterminal .argumentsRest]⟩) (by decide)
        (derives_word (derives_phrase he.phrase_expression (.action (derives_restArguments hrest))))

theorem derives_arguments {es : List Expr} (h : ∀ e ∈ es, e.Derived) :
    Phrase .arguments (rowMarks .takeArgument es) := by
  cases es with
  | nil => exact phrase_of_body (p := ⟨.arguments, []⟩) (by decide) .nil
  | cons e es =>
    obtain ⟨he, hrest⟩ := List.forall_mem_cons.1 h
    exact phrase_of_body (p := ⟨.arguments, [.nonterminal .expression, .action .takeArgument,
      .nonterminal .argumentsRest]⟩) (by decide)
        (derives_phrase he.phrase_expression (.action (derives_restArguments hrest)))

/-- The rest of the items of a list. -/
theorem derives_items : ∀ {es : List Expr}, (∀ e ∈ es, e.Derived) →
    Phrase .listRest (restMarks .listItem es)
  | [], _ => phrase_of_body (p := ⟨.listRest, []⟩) (by decide) .nil
  | _ :: _, h => by
    obtain ⟨he, hrest⟩ := List.forall_mem_cons.1 h
    exact phrase_of_body (p := ⟨.listRest, [.terminal .comma, .nonterminal .expression,
      .action .listItem, .nonterminal .listRest]⟩) (by decide)
        (derives_word (derives_phrase he.phrase_expression (.action (derives_items hrest))))

/-- A call, from its name on, with what stands behind it. -/
theorem derives_call {es : List Expr} (h : ∀ e ∈ es, e.Derived) {symbols : List Grammar.Symbol}
    {w : List Mark} (hw : Derives productions symbols w) :
    Derives productions (.action .beginCall :: .terminal .leftParen :: .nonterminal .arguments ::
      .terminal .rightParen :: .action .dispatch :: symbols)
      (.act .beginCall :: word .leftParen :: (rowMarks .takeArgument es ++
        word .rightParen :: .act .dispatch :: w)) :=
  .action (derives_word (derives_phrase (derives_arguments h) (derives_word (.action hw))))

end Rows

/-- **A value that is grouped as the grammar does** is derived from the phrase of its level. -/
theorem Expr.Graded.derived {e : Expr} (h : e.Graded) : e.Derived := by
  induction h with
  | number digits =>
    exact .of_atom (phrase_of_body (p := ⟨.atom, [.terminal .number, .action .pushNumber]⟩)
      (by decide) (.terminal digits (.action .nil)))
  | name x =>
    have hindex : Phrase .index [] := phrase_of_body (p := ⟨.index, []⟩) (by decide) .nil
    exact .of_name rfl (phrase_of_body (p := ⟨.atomRest, [.action .checkDefined, .action .pushId,
      .nonterminal .index]⟩) (by decide) (.action (.action hindex)))
  | @element x index _ ih =>
    have hindex : Phrase .index (word .leftBracket ::
        (index.marks ++ [word .rightBracket, .act .elementValue])) :=
      phrase_of_body (p := ⟨.index, [.terminal .leftBracket, .nonterminal .expression,
        .terminal .rightBracket, .action .elementValue]⟩) (by decide)
          (derives_word (derives_phrase ih.phrase_expression (derives_word (.action .nil))))
    exact .of_name (by rw [Expr.marks]) (phrase_of_body (p := ⟨.atomRest, [.action .checkDefined,
      .action .pushId, .nonterminal .index]⟩) (by decide) (.action (.action hindex)))
  | call _ ih =>
    exact .of_name (by rw [Expr.marks]) (phrase_of_body (p := ⟨.atomRest, [.action .beginCall,
      .terminal .leftParen, .nonterminal .arguments, .terminal .rightParen, .action .dispatch]⟩)
        (by decide) (derives_call ih .nil))
  | @power base exponent _ _ hbase hexponent ihb ihe =>
    have hpower : Phrase .power (word .starStar :: (exponent.marks ++ [.act .power])) :=
      phrase_of_body (p := ⟨.power, [.terminal .starStar, .nonterminal .factor, .action .power]⟩)
        (by decide) (derives_word (derives_phrase (ihe.factor hexponent) (.action .nil)))
    refine .of_factor (fun hlevel => by cases hlevel) ?_
    rw [Expr.marks]
    exact phrase_of_body (p := ⟨.factor, [.nonterminal .atom, .nonterminal .power]⟩) (by decide)
      (derives_phrase (ihb.atom hbase) hpower)
  | @combine op left right _ _ hleft hright ihl ihr =>
    cases op with
    | mult =>
      refine .of_term rfl fun w hw => ?_
      have hrest := phrase_of_body (p := ⟨.termRest, [.terminal .star, .nonterminal .factor,
        .action .mult, .nonterminal .termRest]⟩) (by decide)
          (derives_word (derives_phrase (ihr.factor hright) (.action hw)))
      simpa [Expr.marks, Operator.terminal, Operator.action] using ihl.term hleft _ hrest
    | add =>
      refine .of_expression rfl fun w hw => ?_
      have hrest := phrase_of_body (p := ⟨.expressionRest, [.terminal .plus, .nonterminal .term,
        .action .add, .nonterminal .expressionRest]⟩) (by decide)
          (derives_word (derives_phrase (ihr.phrase_term hright) (.action hw)))
      simpa [Expr.marks, Operator.terminal, Operator.action] using ihl.expression _ hrest
    | sub =>
      refine .of_expression rfl fun w hw => ?_
      have hrest := phrase_of_body (p := ⟨.expressionRest, [.terminal .minus, .nonterminal .term,
        .action .sub, .nonterminal .expressionRest]⟩) (by decide)
          (derives_word (derives_phrase (ihr.phrase_term hright) (.action hw)))
      simpa [Expr.marks, Operator.terminal, Operator.action] using ihl.expression _ hrest

theorem Expr.Graded.derives {e : Expr} (h : e.Graded) : Phrase .expression e.marks :=
  h.derived.phrase_expression

theorem Relation.Graded.derives {r : Relation} (h : r.Graded) : Phrase .relation r.marks := by
  have hop : Phrase .relationalOperator [word r.terminal, .act r.marker] := by
    unfold Relation.terminal Relation.marker
    split
    · exact phrase_of_body (p := ⟨.relationalOperator, [.terminal .equal, .action .markEq]⟩)
        (by decide) (derives_word (.action .nil))
    · exact phrase_of_body (p := ⟨.relationalOperator, [.terminal .less, .action .markLt]⟩)
        (by decide) (derives_word (.action .nil))
  exact phrase_of_body (p := ⟨.relation, [.nonterminal .expression,
    .nonterminal .relationalOperator, .nonterminal .expression, .action .compare]⟩) (by decide)
      (derives_phrase h.1.derives (derives_phrase hop (derives_phrase h.2.derives (.action .nil))))

theorem Assigned.Graded.derives {a : Assigned} (h : a.Graded) : Phrase .assigned a.marks := by
  cases a with
  | value e =>
    exact phrase_of_body (p := ⟨.assigned, [.nonterminal .expression]⟩) (by decide)
      (Expr.Graded.derives h)
  | list first rest =>
    obtain ⟨hfirst, hrest⟩ := List.forall_mem_cons.1 h
    have hbody := phrase_of_body (p := ⟨.assigned, [.terminal .leftBracket, .action .listBegin,
      .nonterminal .expression, .action .listItem, .nonterminal .listRest,
        .terminal .rightBracket]⟩) (by decide)
          (derives_word (.action (derives_phrase hfirst.derives (.action
            (derives_phrase (derives_items fun e he => (hrest e he).derived)
              (derives_word .nil))))))
    simpa [Assigned.marks, rowMarks] using hbody

theorem derives_furtherParams : ∀ params : List String,
    Phrase .parametersRest (furtherParamMarks params)
  | [] => phrase_of_body (p := ⟨.parametersRest, []⟩) (by decide) .nil
  | _ :: rest =>
    phrase_of_body (p := ⟨.parametersRest, [.terminal .comma, .terminal .identifier,
      .action .param, .nonterminal .parametersRest]⟩) (by decide)
        (derives_word (derives_name (.action (derives_furtherParams rest))))

theorem derives_params (params : List String) : Phrase .parameters (paramMarks params) := by
  cases params with
  | nil => exact phrase_of_body (p := ⟨.parameters, []⟩) (by decide) .nil
  | cons x rest =>
    exact phrase_of_body (p := ⟨.parameters, [.terminal .identifier, .action .param,
      .nonterminal .parametersRest]⟩) (by decide)
        (derives_name (.action (derives_furtherParams rest)))

/-- Statements one behind the other. -/
theorem derives_statements : ∀ {b : Block}, (∀ s ∈ b, Phrase .statement s.marks) →
    Phrase .statements (blockMarks b)
  | [], _ => phrase_of_body (p := ⟨.statements, []⟩) (by decide) .nil
  | _ :: _, h => by
    obtain ⟨hs, hrest⟩ := List.forall_mem_cons.1 h
    exact phrase_of_body (p := ⟨.statements, [.nonterminal .statement, .terminal .semicolon,
      .nonterminal .statements]⟩) (by decide)
        (derives_phrase hs (derives_word (derives_statements hrest)))

section Kinds

variable {w : List Mark}

/-- A statement that fits on a line is a statement. -/
theorem statement_of_simple (h : Phrase .simpleStatement w) : Phrase .statement w :=
  phrase_of_body (p := ⟨.statement, [.nonterminal .simpleStatement]⟩) (by decide) h

theorem statement_of_compound (h : Phrase .compoundStatement w) : Phrase .statement w :=
  phrase_of_body (p := ⟨.statement, [.nonterminal .compoundStatement]⟩) (by decide) h

/-- What begins with a name. -/
theorem statement_of_name {x : String} (h : Phrase .afterName w) :
    Phrase .statement (nameMark x :: w) :=
  statement_of_simple (phrase_of_body (p := ⟨.simpleStatement, [.nonterminal .assignmentOrCall]⟩)
    (by decide) (phrase_of_body (p := ⟨.assignmentOrCall, [.terminal .identifier,
      .nonterminal .afterName]⟩) (by decide) (derives_name h)))

theorem statement_of_return (h : Phrase .returnValue w) :
    Phrase .statement (word .kwReturn :: w) :=
  statement_of_simple (phrase_of_body (p := ⟨.simpleStatement, [.nonterminal .returnStatement]⟩)
    (by decide) (phrase_of_body (p := ⟨.returnStatement, [.terminal .kwReturn,
      .nonterminal .returnValue]⟩) (by decide) (derives_word h)))

/-- A branch, up to what stands behind its block. -/
theorem statement_of_if {test : Relation} {body : Block} (ht : test.Graded)
    (hbody : ∀ s ∈ body, Phrase .statement s.marks) (h : Phrase .elseBlock w) :
    Phrase .statement (word .kwIf :: (test.marks ++ .act .save :: word .colon ::
      (blockMarks body ++ w))) := by
  have hbranch := phrase_of_body (p := ⟨.ifStatement, [.terminal .kwIf, .nonterminal .relation,
    .action .save, .terminal .colon, .nonterminal .statements, .nonterminal .elseBlock]⟩)
      (by decide) (derives_word (derives_phrase ht.derives (.action (derives_word
        (derives_phrase (derives_statements hbody) h)))))
  exact statement_of_compound (phrase_of_body
    (p := ⟨.compoundStatement, [.nonterminal .ifStatement]⟩) (by decide) hbranch)

end Kinds

/-- **A statement whose values are grouped as the grammar does** is derived along its marks. -/
theorem Statement.Graded.derives {s : Statement} (h : s.Graded) : Phrase .statement s.marks := by
  induction h with
  | assign h =>
    rw [Statement.marks]
    exact statement_of_name (phrase_of_body (p := ⟨.afterName, [.action .pushTarget,
      .terminal .assign, .nonterminal .assigned, .action .assign]⟩) (by decide)
        (.action (derives_word (derives_phrase h.derives (.action .nil)))))
  | assignElement hi h =>
    rw [Statement.marks]
    exact statement_of_name (phrase_of_body (p := ⟨.afterName, [.action .checkDefined,
      .action .pushId, .terminal .leftBracket, .nonterminal .expression, .terminal .rightBracket,
        .action .elementAddress, .terminal .assign, .nonterminal .assigned, .action .assign]⟩)
          (by decide) (.action (.action (derives_word (derives_phrase hi.derives (derives_word
            (.action (derives_word (derives_phrase h.derives (.action .nil))))))))))
  | call h =>
    rw [Statement.marks]
    exact statement_of_name (phrase_of_body (p := ⟨.afterName, [.action .beginCall,
      .terminal .leftParen, .nonterminal .arguments, .terminal .rightParen, .action .dispatch,
        .action .discardResult]⟩) (by decide)
          (derives_call (fun e he => (h e he).derived) (.action .nil)))
  | returnValue h =>
    rw [Statement.marks]
    exact statement_of_return (phrase_of_body (p := ⟨.returnValue, [.nonterminal .expression,
      .action .returnValue]⟩) (by decide) (derives_phrase h.derives (.action .nil)))
  | returnNothing =>
    rw [Statement.marks]
    exact statement_of_return (phrase_of_body (p := ⟨.returnValue, [.action .returnVoid]⟩)
      (by decide) (.action .nil))
  | global x =>
    rw [Statement.marks]
    exact statement_of_simple (phrase_of_body
      (p := ⟨.simpleStatement, [.nonterminal .globalStatement]⟩) (by decide) (phrase_of_body
        (p := ⟨.globalStatement, [.terminal .kwGlobal, .terminal .identifier, .action .global]⟩)
          (by decide) (derives_word (derives_name (.action .nil)))))
  | print h =>
    rw [Statement.marks]
    exact statement_of_simple (phrase_of_body
      (p := ⟨.simpleStatement, [.nonterminal .printStatement]⟩) (by decide) (phrase_of_body
        (p := ⟨.printStatement, [.terminal .kwPrint, .terminal .leftParen,
          .nonterminal .expression, .terminal .rightParen, .action .print]⟩) (by decide)
            (derives_word (derives_word (derives_phrase h.derives (derives_word (.action .nil)))))))
  | leave exit =>
    rw [Statement.marks]
    refine statement_of_simple ?_
    cases exit with
    | breaks =>
      exact phrase_of_body (p := ⟨.simpleStatement, [.terminal .kwBreak, .action .breakLoop]⟩)
        (by decide) (derives_word (.action .nil))
    | continues =>
      exact phrase_of_body (p := ⟨.simpleStatement, [.terminal .kwContinue,
        .action .continueLoop]⟩) (by decide) (derives_word (.action .nil))
  | @define f params body _ ih =>
    rw [Statement.marks]
    have hdefinition := phrase_of_body (p := ⟨.functionDefinition, [.terminal .kwDef,
      .terminal .identifier, .action .enterFunction, .terminal .leftParen,
        .nonterminal .parameters, .terminal .rightParen, .action .paramsDone, .terminal .colon,
          .nonterminal .statements, .action .exitFunction, .action .checkOverload]⟩) (by decide)
            (derives_word (derives_name (x := f) (.action (derives_word (derives_phrase
              (derives_params params) (derives_word (.action (derives_word (derives_phrase
                (derives_statements ih) (.action (.action .nil)))))))))))
    exact statement_of_compound (phrase_of_body
      (p := ⟨.compoundStatement, [.nonterminal .functionDefinition]⟩) (by decide) hdefinition)
  | ifThen ht _ ih =>
    rw [Statement.marks]
    exact statement_of_if ht ih (phrase_of_body (p := ⟨.elseBlock, [.action .falseJump]⟩)
      (by decide) (.action .nil))
  | ifElse ht _ _ ih iho =>
    rw [Statement.marks]
    exact statement_of_if ht ih (phrase_of_body (p := ⟨.elseBlock, [.terminal .kwElse,
      .action .falseJumpSave, .terminal .colon, .nonterminal .statements, .action .jump]⟩)
        (by decide) (derives_word (.action (derives_word (derives_phrase (derives_statements iho)
          (.action .nil))))))
  | loop ht _ ih =>
    rw [Statement.marks]
    have hloop := phrase_of_body (p := ⟨.iteration, [.terminal .kwWhile, .action .loopBegin,
      .terminal .leftParen, .nonterminal .relation, .terminal .rightParen, .action .save,
        .nonterminal .statements, .action .loopEnd]⟩) (by decide)
          (derives_word (.action (derives_word (derives_phrase ht.derives (derives_word (.action
            (derives_phrase (derives_statements ih) (.action .nil))))))))
    exact statement_of_compound (phrase_of_body
      (p := ⟨.compoundStatement, [.nonterminal .iteration]⟩) (by decide) hloop)

/-- **A block is derived along its marks** from the phrase of a whole text. -/
theorem derives_block {b : Block} (h : ∀ s ∈ b, s.Graded) :
    Phrase Grammar.start (blockMarks b) :=
  phrase_of_body (p := ⟨.program, [.nonterminal .statements]⟩) (by decide)
    (derives_statements fun s hs => (h s hs).derives)

end OnePass.Syntax

namespace OnePass.Derivation

open Grammar (Mark)
open Machine
open Syntax (Block blockMarks)

/-- **A text that spells a block** has no syntax error, and a trace along the marks of the block. -/
theorem trace_of_spelled {config : Config} {source : String} {o : Outcome}
    (h : parse config source = .ok o) {b : Block} (hb : ∀ s ∈ b, s.Graded)
    (hs : Mark.Spelled (blockMarks b) o.scan.tokens) :
    o.syntaxErrors = [] ∧ ∃ tr : Trace (.reserving config.keywords) (blockMarks b),
      tr.state 0 = (begun config source).generator ∧
        tr.state (blockMarks b).length = o.generator ∧
        ∀ i ≤ (blockMarks b).length, ∃ m, Comes config source ((blockMarks b).take i) m ∧
          m.generator = tr.state i ∧ m.lastLexeme = tr.lexeme i ∧ m.lastLine = tr.line i ∧
            ∀ a, (blockMarks b)[i]? = some (.act a) → ∃ rest, m.goals = .act a :: rest := by
  have hd := Syntax.derives_block hb
  obtain ⟨table, m, htable, hw, -, -, herrors, -, hgen, -⟩ := along_of_spelled h hd hs
  obtain ⟨tr, hstart, hend, hcomes⟩ := trace_of_along htable hd hw
  exact ⟨herrors, tr, hstart, hend.trans hgen.symm, hcomes⟩

end OnePass.Derivation
