import OnePass.Grammar.Language
import OnePass.Proofs.Grammar.Derives

/-!
# Phrases as trees

The statements and values of the language, as trees without the symbols that only hold a
text together. A tree knows the marks that it is derived along.

* `Expr`, `Statement`, `Block`: values, statements and what stands in a body.
* `Expr.marks`, `Statement.marks`, `blockMarks`: terminals and actions in their order.
* `Expr.Graded`: powers bind tighter than products and products tighter than sums, and
  only powers are grouped from the right. It is decidable, for whole texts too.
-/

namespace OnePass.Syntax

open Grammar (Action Mark Terminal)

/-- The mark of a terminal that is known by its lexeme. -/
def word (t : Terminal) : Mark := .read t t.lexeme

/-- The mark of a name. -/
def nameMark (x : String) : Mark := .read .identifier x

/-- The operators of sums and products. -/
inductive Operator where
  | add
  | sub
  | mult
deriving DecidableEq

namespace Operator

def terminal : Operator → Terminal
  | add => .plus
  | sub => .minus
  | mult => .star

def action : Operator → Action
  | add => .add
  | sub => .sub
  | mult => .mult

/-- How tight the operator binds. -/
def level : Operator → Nat
  | add | sub => 0
  | mult => 1

end Operator

/-- **A value.** -/
inductive Expr where
  | number (digits : String)
  | name (x : String)
  | element (x : String) (index : Expr)
  | call (f : String) (arguments : List Expr)
  | power (base exponent : Expr)
  | combine (op : Operator) (left right : Expr)

mutual

/-- The marks that a value is derived along. -/
def Expr.marks : Expr → List Mark
  | .number digits => [.read .number digits, .act .pushNumber]
  | .name x => [nameMark x, .act .checkDefined, .act .pushId]
  | .element x index =>
    nameMark x :: .act .checkDefined :: .act .pushId :: word .leftBracket ::
      (index.marks ++ [word .rightBracket, .act .elementValue])
  | .call f arguments =>
    nameMark f :: .act .beginCall :: word .leftParen ::
      (rowMarks .takeArgument arguments ++ [word .rightParen, .act .dispatch])
  | .power base exponent => base.marks ++ word .starStar :: (exponent.marks ++ [.act .power])
  | .combine op left right =>
    left.marks ++ word op.terminal :: (right.marks ++ [.act op.action])

/-- A row of values with commas between them, and an action behind each. -/
def rowMarks (a : Action) : List Expr → List Mark
  | [] => []
  | e :: rest => e.marks ++ .act a :: restMarks a rest

/-- The rest of a row, each value behind a comma. -/
def restMarks (a : Action) : List Expr → List Mark
  | [] => []
  | e :: rest => word .comma :: (e.marks ++ .act a :: restMarks a rest)

end

/-- How tight the outermost operator binds; a value without one stands for itself. -/
def Expr.level : Expr → Nat
  | .combine op _ _ => op.level
  | .power .. => 2
  | _ => 3

theorem Expr.level_le (e : Expr) : e.level ≤ 3 := by
  cases e with
  | combine op => cases op <;> simp [level, Operator.level]
  | _ => simp [level]

/-- **The grouping that the grammar gives.** To the left of an operator stands what binds as tight,
and to its right what binds tighter; a power takes the power to its right as its exponent. -/
inductive Expr.Graded : Expr → Prop
  | number (digits : String) : Graded (.number digits)
  | name (x : String) : Graded (.name x)
  | element {x : String} {index : Expr} (h : index.Graded) : Graded (.element x index)
  | call {f : String} {arguments : List Expr} (h : ∀ e ∈ arguments, e.Graded) :
    Graded (.call f arguments)
  | power {base exponent : Expr} (hb : base.Graded) (he : exponent.Graded)
      (hbase : base.level = 3) (hexponent : 2 ≤ exponent.level) : Graded (.power base exponent)
  | combine {op : Operator} {left right : Expr} (hl : left.Graded) (hr : right.Graded)
      (hleft : op.level ≤ left.level) (hright : op.level < right.level) :
      Graded (.combine op left right)

mutual

def Expr.decidableGraded : ∀ e : Expr, Decidable e.Graded
  | .number _ => isTrue (.number _)
  | .name _ => isTrue (.name _)
  | .element _ index =>
    have := index.decidableGraded
    decidable_of_iff index.Graded ⟨.element, fun | .element h => h⟩
  | .call _ arguments =>
    have := decidableRow arguments
    decidable_of_iff (∀ e ∈ arguments, e.Graded) ⟨.call, fun | .call h => h⟩
  | .power base exponent =>
    have := base.decidableGraded
    have := exponent.decidableGraded
    decidable_of_iff (base.Graded ∧ exponent.Graded ∧ base.level = 3 ∧ 2 ≤ exponent.level)
      ⟨fun ⟨hb, he, hbase, hexponent⟩ => .power hb he hbase hexponent,
        fun | .power hb he hbase hexponent => ⟨hb, he, hbase, hexponent⟩⟩
  | .combine op left right =>
    have := left.decidableGraded
    have := right.decidableGraded
    decidable_of_iff (left.Graded ∧ right.Graded ∧ op.level ≤ left.level ∧ op.level < right.level)
      ⟨fun ⟨hl, hr, hleft, hright⟩ => .combine hl hr hleft hright,
        fun | .combine hl hr hleft hright => ⟨hl, hr, hleft, hright⟩⟩

def decidableRow : ∀ es : List Expr, Decidable (∀ e ∈ es, e.Graded)
  | [] => isTrue nofun
  | e :: rest =>
    have := e.decidableGraded
    have := decidableRow rest
    decidable_of_iff (e.Graded ∧ ∀ e ∈ rest, e.Graded) List.forall_mem_cons.symm

end

instance : DecidablePred Expr.Graded := Expr.decidableGraded

/-- A relation of two values: whether they are equal, or else whether the first is less. -/
structure Relation where
  left : Expr
  equal : Bool
  right : Expr

namespace Relation

def terminal (r : Relation) : Terminal := if r.equal then .equal else .less

def marker (r : Relation) : Action := if r.equal then .markEq else .markLt

def marks (r : Relation) : List Mark :=
  r.left.marks ++ word r.terminal :: .act r.marker :: (r.right.marks ++ [.act .compare])

def Graded (r : Relation) : Prop := r.left.Graded ∧ r.right.Graded

instance : DecidablePred Graded := fun r => inferInstanceAs (Decidable (r.left.Graded ∧ r.right.Graded))

end Relation

/-- What is assigned: a value, or a list of at least one. -/
inductive Assigned where
  | value (e : Expr)
  | list (first : Expr) (rest : List Expr)

namespace Assigned

def marks : Assigned → List Mark
  | value e => e.marks
  | list first rest =>
    word .leftBracket :: .act .listBegin :: (rowMarks .listItem (first :: rest) ++
      [word .rightBracket])

def Graded : Assigned → Prop
  | value e => e.Graded
  | list first rest => ∀ e ∈ first :: rest, e.Graded

instance : DecidablePred Graded
  | value e => inferInstanceAs (Decidable e.Graded)
  | list first rest => inferInstanceAs (Decidable (∀ e ∈ first :: rest, e.Graded))

end Assigned

/-- The two ways to leave a turn of a loop. -/
inductive Exit where
  | breaks
  | continues
deriving DecidableEq

namespace Exit

def terminal : Exit → Terminal
  | breaks => .kwBreak
  | continues => .kwContinue

def action : Exit → Action
  | breaks => .breakLoop
  | continues => .continueLoop

end Exit

/-- **A statement.** -/
inductive Statement where
  | assign (x : String) (value : Assigned)
  | assignElement (x : String) (index : Expr) (value : Assigned)
  | call (f : String) (arguments : List Expr)
  | returnValue (e : Expr)
  | returnNothing
  | global (x : String)
  | print (e : Expr)
  | leave (exit : Exit)
  | define (f : String) (params : List String) (body : List Statement)
  | ifThen (test : Relation) (body : List Statement)
  | ifElse (test : Relation) (body other : List Statement)
  | loop (test : Relation) (body : List Statement)

/-- What stands in a body, or in a whole text. -/
abbrev Block := List Statement

/-- The parameters of a function behind the first, each behind a comma. -/
def furtherParamMarks : List String → List Mark
  | [] => []
  | x :: rest => word .comma :: nameMark x :: .act .param :: furtherParamMarks rest

/-- The parameters of a function, with commas between them. -/
def paramMarks : List String → List Mark
  | [] => []
  | x :: rest => nameMark x :: .act .param :: furtherParamMarks rest

mutual

/-- The marks that a statement is derived along. -/
def Statement.marks : Statement → List Mark
  | .assign x value =>
    nameMark x :: .act .pushTarget :: word .assign :: (value.marks ++ [.act .assign])
  | .assignElement x index value =>
    nameMark x :: .act .checkDefined :: .act .pushId :: word .leftBracket ::
      (index.marks ++ word .rightBracket :: .act .elementAddress :: word .assign ::
        (value.marks ++ [.act .assign]))
  | .call f arguments =>
    nameMark f :: .act .beginCall :: word .leftParen ::
      (rowMarks .takeArgument arguments ++ [word .rightParen, .act .dispatch, .act .discardResult])
  | .returnValue e => word .kwReturn :: (e.marks ++ [.act .returnValue])
  | .returnNothing => [word .kwReturn, .act .returnVoid]
  | .global x => [word .kwGlobal, nameMark x, .act .global]
  | .print e =>
    word .kwPrint :: word .leftParen :: (e.marks ++ [word .rightParen, .act .print])
  | .leave exit => [word exit.terminal, .act exit.action]
  | .define f params body =>
    word .kwDef :: nameMark f :: .act .enterFunction :: word .leftParen ::
      (paramMarks params ++ word .rightParen :: .act .paramsDone :: word .colon ::
        (blockMarks body ++ [.act .exitFunction, .act .checkOverload]))
  | .ifThen test body =>
    word .kwIf :: (test.marks ++ .act .save :: word .colon ::
      (blockMarks body ++ [.act .falseJump]))
  | .ifElse test body other =>
    word .kwIf :: (test.marks ++ .act .save :: word .colon ::
      (blockMarks body ++ word .kwElse :: .act .falseJumpSave :: word .colon ::
        (blockMarks other ++ [.act .jump])))
  | .loop test body =>
    word .kwWhile :: .act .loopBegin :: word .leftParen ::
      (test.marks ++ word .rightParen :: .act .save :: (blockMarks body ++ [.act .loopEnd]))

/-- The marks of a body, every statement with its semicolon. -/
def blockMarks : List Statement → List Mark
  | [] => []
  | s :: rest => s.marks ++ word .semicolon :: blockMarks rest

end

/-- Every value in a statement is grouped as the grammar does. -/
inductive Statement.Graded : Statement → Prop
  | assign {x : String} {value : Assigned} (h : value.Graded) : Graded (.assign x value)
  | assignElement {x : String} {index : Expr} {value : Assigned} (hi : index.Graded)
      (h : value.Graded) : Graded (.assignElement x index value)
  | call {f : String} {arguments : List Expr} (h : ∀ e ∈ arguments, e.Graded) :
    Graded (.call f arguments)
  | returnValue {e : Expr} (h : e.Graded) : Graded (.returnValue e)
  | returnNothing : Graded .returnNothing
  | global (x : String) : Graded (.global x)
  | print {e : Expr} (h : e.Graded) : Graded (.print e)
  | leave (exit : Exit) : Graded (.leave exit)
  | define {f : String} {params : List String} {body : List Statement}
      (h : ∀ s ∈ body, s.Graded) : Graded (.define f params body)
  | ifThen {test : Relation} {body : List Statement} (ht : test.Graded)
      (h : ∀ s ∈ body, s.Graded) : Graded (.ifThen test body)
  | ifElse {test : Relation} {body other : List Statement} (ht : test.Graded)
      (h : ∀ s ∈ body, s.Graded) (ho : ∀ s ∈ other, s.Graded) :
      Graded (.ifElse test body other)
  | loop {test : Relation} {body : List Statement} (ht : test.Graded)
      (h : ∀ s ∈ body, s.Graded) : Graded (.loop test body)

mutual

def Statement.decidableGraded : ∀ s : Statement, Decidable s.Graded
  | .assign _ value => decidable_of_iff value.Graded ⟨.assign, fun | .assign h => h⟩
  | .assignElement _ index value =>
    decidable_of_iff (index.Graded ∧ value.Graded)
      ⟨fun ⟨hi, h⟩ => .assignElement hi h, fun | .assignElement hi h => ⟨hi, h⟩⟩
  | .call _ arguments =>
    decidable_of_iff (∀ e ∈ arguments, e.Graded) ⟨.call, fun | .call h => h⟩
  | .returnValue e => decidable_of_iff e.Graded ⟨.returnValue, fun | .returnValue h => h⟩
  | .returnNothing => isTrue .returnNothing
  | .global x => isTrue (.global x)
  | .print e => decidable_of_iff e.Graded ⟨.print, fun | .print h => h⟩
  | .leave exit => isTrue (.leave exit)
  | .define _ _ body =>
    have := decidableBlock body
    decidable_of_iff (∀ s ∈ body, s.Graded) ⟨.define, fun | .define h => h⟩
  | .ifThen test body =>
    have := decidableBlock body
    decidable_of_iff (test.Graded ∧ ∀ s ∈ body, s.Graded)
      ⟨fun ⟨ht, h⟩ => .ifThen ht h, fun | .ifThen ht h => ⟨ht, h⟩⟩
  | .ifElse test body other =>
    have := decidableBlock body
    have := decidableBlock other
    decidable_of_iff (test.Graded ∧ (∀ s ∈ body, s.Graded) ∧ ∀ s ∈ other, s.Graded)
      ⟨fun ⟨ht, h, ho⟩ => .ifElse ht h ho, fun | .ifElse ht h ho => ⟨ht, h, ho⟩⟩
  | .loop test body =>
    have := decidableBlock body
    decidable_of_iff (test.Graded ∧ ∀ s ∈ body, s.Graded)
      ⟨fun ⟨ht, h⟩ => .loop ht h, fun | .loop ht h => ⟨ht, h⟩⟩

def decidableBlock : ∀ b : List Statement, Decidable (∀ s ∈ b, s.Graded)
  | [] => isTrue nofun
  | s :: rest =>
    have := s.decidableGraded
    have := decidableBlock rest
    decidable_of_iff (s.Graded ∧ ∀ s ∈ rest, s.Graded) List.forall_mem_cons.symm

end

instance : DecidablePred Statement.Graded := Statement.decidableGraded

end OnePass.Syntax
