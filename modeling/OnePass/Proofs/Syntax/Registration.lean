import OnePass.Proofs.Derivation.Entering
import OnePass.Proofs.Syntax.Reading
import OnePass.Proofs.Syntax.Values
import OnePass.Proofs.Syntax.Writing

/-!
# Names are entered in the scopes they stand in

A name stands in the scope of the innermost function or loop around it. The parameters and
the body of a function are in its scope, and its own name is not; the test and the body of
a loop are in its scope.

* `Statement.names`, `blockNames`: **the names of a text, each with the scope it stands in.**
* `Unscoped`: marks that begin and end neither functions nor loops. `namesAlong_unscoped`.
* `namesAlong_block`: the names of a block, read one token ahead.
* `entered_of_parse`: in an accepted text every name is entered in the scope it stands in.
-/

namespace OnePass.Syntax

open OnePass.Derivation Emission
open Grammar (Action Mark Terminal)
open Names (Scopes)

/-- The name of a mark that reads one. -/
def nameOf? : Mark → Option String
  | .read .identifier x => some x
  | _ => none

/-- The names that marks read, all of them in one scope. -/
def namesIn (scope : Nat) (w : List Mark) : List (String × Nat) :=
  (w.filterMap nameOf?).map (·, scope)

mutual

/-- **The functions and the loops of a statement,** from left to right, as the actions that begin
them. -/
def Statement.beginnings : Statement → List Action
  | .define _ _ body => .enterFunction :: blockBeginnings body
  | .loop _ body => .loopBegin :: blockBeginnings body
  | .ifThen _ body => blockBeginnings body
  | .ifElse _ body other => blockBeginnings body ++ blockBeginnings other
  | _ => []

def blockBeginnings : List Statement → List Action
  | [] => []
  | s :: rest => s.beginnings ++ blockBeginnings rest

end

mutual

/-- **The names of a statement,** from left to right, each with the scope it stands in. That is
`here`, but for functions and loops, which have scopes of their own; those are numbered from `next`
on, in the order of the text. -/
def Statement.names (here next : Nat) : Statement → List (String × Nat)
  | .define f params body =>
    (f, here) :: (params.map (·, next) ++ blockNames next (next + 1) body)
  | .loop test body => namesIn next test.marks ++ blockNames next (next + 1) body
  | .ifThen test body => namesIn here test.marks ++ blockNames here next body
  | .ifElse test body other =>
    namesIn here test.marks ++ (blockNames here next body ++
      blockNames here (next + (blockBeginnings body).length) other)
  | s => namesIn here s.marks

/-- The names of a block, each with the scope it stands in. -/
def blockNames (here next : Nat) : List Statement → List (String × Nat)
  | [] => []
  | s :: rest => s.names here next ++ blockNames here (next + s.beginnings.length) rest

end

section Unscoped

/-- Whether an action begins or ends a function or a loop. -/
def movesScope : Action → Bool
  | .enterFunction | .exitFunction | .loopBegin | .loopEnd => true
  | _ => false

/-- **Marks that begin and end neither functions nor loops.** -/
def Unscoped (v : List Mark) : Prop := ∀ a, .act a ∈ v → movesScope a = false

variable {u v w : List Mark} {a : Action} {t : Terminal} {x : String} {s : Statement}
  {seen next : Nat} {around : List Nat}

@[simp] theorem unscoped_nil : Unscoped [] := nofun

@[simp] theorem unscoped_read : Unscoped (.read t x :: v) ↔ Unscoped v := by simp [Unscoped]

@[simp] theorem unscoped_word : Unscoped (word t :: v) ↔ Unscoped v := unscoped_read

@[simp] theorem unscoped_name : Unscoped (nameMark x :: v) ↔ Unscoped v := unscoped_read

@[simp] theorem unscoped_act : Unscoped (.act a :: v) ↔ movesScope a = false ∧ Unscoped v := by
  simp [Unscoped, or_imp, forall_and]

@[simp] theorem unscoped_append : Unscoped (u ++ v) ↔ Unscoped u ∧ Unscoped v := by
  simp [Unscoped, or_imp, forall_and]

/-- What only computes neither begins nor ends anything. -/
theorem Computing.unscoped (h : Computing v) : Unscoped v := by
  intro a ha
  have hcomputes := h a ha
  cases a with
  | enterFunction | exitFunction | loopBegin | loopEnd => cases hcomputes
  | _ => rfl

/-- Whether a statement has no body. -/
def Statement.isFlat : Statement → Bool
  | .define .. | .loop .. | .ifThen .. | .ifElse .. => false
  | _ => true

theorem Statement.unscoped (h : s.isFlat = true) : Unscoped s.marks := by
  cases s with
  | returnValue e => simp [marks, movesScope, Computing.unscoped e.computing]
  | returnNothing => simp [marks, movesScope]
  | leave exit => cases exit <;> simp [marks, Exit.action, movesScope]
  | define | loop | ifThen | ifElse => cases h
  | _ => exact Computing.unscoped (Statement.computing rfl)

theorem unscoped_params (params : List String) : Unscoped (paramMarks params) := by
  have hfurther : ∀ params, Unscoped (furtherParamMarks params) := fun params => by
    induction params with
    | nil => simp [furtherParamMarks]
    | cons x rest ih => simp [furtherParamMarks, movesScope, ih]
  cases params with
  | nil => simp [paramMarks]
  | cons x rest => simp [paramMarks, movesScope, hfurther]

/-- Nothing begins along marks without scopes. -/
theorem Unscoped.filterMap_opening (h : Unscoped v) : v.filterMap Mark.opening? = [] := by
  rw [List.filterMap_eq_nil_iff]
  intro k hk
  cases k with
  | read t x => rfl
  | act a =>
    have ha := h a hk
    cases a with
    | enterFunction | exitFunction | loopBegin | loopEnd => cases ha
    | _ => rfl

end Unscoped

section Walk

variable {v w : List Mark} {x : String} {s : Statement} {t : Terminal} {seen next : Nat}
  {around : List Nat} {a : Action}

/-- A word is no name, and the next token is seen from behind it. -/
theorem namesAlong_word (ht : t ≠ .identifier) :
    namesAlong seen around next (word t :: w) = namesAlong (innermost around) around next w := by
  rw [word, namesAlong, if_neg ht, List.nil_append]

/-- A name belongs to the scope that it was seen from. -/
theorem namesAlong_name : namesAlong seen around next (nameMark x :: w) =
    (x, seen) :: namesAlong (innermost around) around next w := rfl

/-- The scope of a function or a loop is around what comes behind its beginning. -/
theorem namesAlong_opening (ha : opensScope a = true) : namesAlong seen around next (.act a :: w) =
    namesAlong seen (next :: around) (next + 1) w := by
  cases a with
  | enterFunction | loopBegin => rfl
  | _ => cases ha

/-- Behind its end the scope around it is the innermost again. -/
theorem namesAlong_closing (ha : a = .exitFunction ∨ a = .loopEnd) :
    namesAlong seen around next (.act a :: w) = namesAlong seen around.tail next w := by
  rcases ha with rfl | rfl <;> rfl

/-- Other actions leave the scopes as they are. -/
theorem namesAlong_act (ha : movesScope a = false) :
    namesAlong seen around next (.act a :: w) = namesAlong seen around next w := by
  cases a with
  | enterFunction | exitFunction | loopBegin | loopEnd => cases ha
  | _ => rfl

/-- Along marks without scopes every name belongs to the innermost. -/
theorem namesAlong_unscoped (h : Unscoped v) :
    namesAlong (innermost around) around next (v ++ w) =
      namesIn (innermost around) v ++ namesAlong (innermost around) around next w := by
  induction v with
  | nil => rfl
  | cons k v ih =>
    cases k with
    | read t x =>
      rw [List.cons_append, namesAlong, ih (unscoped_read.1 h), ← List.append_assoc]
      congr 1
      cases t <;> rfl
    | act a =>
      obtain ⟨ha, hv⟩ := unscoped_act.1 h
      rw [List.cons_append, namesAlong_act ha]
      exact ih hv

theorem namesIn_params (scope : Nat) (params : List String) :
    namesIn scope (paramMarks params) = params.map (·, scope) := by
  have hfurther : ∀ params, namesIn scope (furtherParamMarks params) = params.map (·, scope) :=
    fun params => by
      induction params with
      | nil => rfl
      | cons x rest ih => exact congrArg ((x, scope) :: ·) ih
  cases params with
  | nil => rfl
  | cons x rest => exact congrArg ((x, scope) :: ·) (hfurther rest)

/-- A statement without a body has all its names in one scope, and begins nothing. -/
theorem Statement.names_of_isFlat (h : s.isFlat = true) (here next : Nat) :
    s.names here next = namesIn here s.marks ∧ s.beginnings = [] := by
  cases s with
  | define | loop | ifThen | ifElse => cases h
  | _ => simp only [Statement.names, Statement.beginnings, and_self]

/-- A statement without a body, and the semicolon behind it. -/
theorem Statement.namesAlong_of_isFlat (h : s.isFlat = true) :
    namesAlong (innermost around) around next (s.marks ++ word .semicolon :: w) =
      s.names (innermost around) next ++
        namesAlong (innermost around) around (next + s.beginnings.length) w := by
  obtain ⟨hnames, hbeginnings⟩ := s.names_of_isFlat h (innermost around) next
  have hsemicolon : namesAlong (innermost around) around next (word .semicolon :: w) =
      namesAlong (innermost around) around next w := namesAlong_word (by decide)
  rw [namesAlong_unscoped (Statement.unscoped h), hnames, hbeginnings, hsemicolon]
  rfl

mutual

/-- **The names of a statement,** read one token ahead, and the semicolon behind it. -/
theorem Statement.namesAlong_marks : ∀ (s : Statement) (around : List Nat) (next : Nat)
    (w : List Mark), namesAlong (innermost around) around next (s.marks ++ word .semicolon :: w) =
      s.names (innermost around) next ++
        namesAlong (innermost around) around (next + s.beginnings.length) w
  | .define f params body, around, next, w => by
    have hbody := namesAlong_block body (next :: around) (next + 1)
    simp (disch := decide) only [Statement.marks, List.cons_append, List.append_assoc,
      List.nil_append, namesAlong_word, namesAlong_name, namesAlong_opening]
    -- behind the parenthesis the scope of the function is the innermost
    rw [namesAlong_unscoped (unscoped_params params), namesIn_params]
    simp (disch := decide) only [namesAlong_word, namesAlong_act]
    rw [hbody]
    simp (disch := decide) only [namesAlong_closing, namesAlong_act, namesAlong_word]
    rw [Statement.names, Statement.beginnings, List.length_cons, ← Nat.add_assoc,
      Nat.add_right_comm, List.cons_append, List.append_assoc]
    rfl
  | .loop test body, around, next, w => by
    have hbody := namesAlong_block body (next :: around) (next + 1)
    simp (disch := decide) only [Statement.marks, List.cons_append, List.append_assoc,
      List.nil_append, namesAlong_word, namesAlong_opening]
    rw [namesAlong_unscoped (Computing.unscoped test.computing)]
    simp (disch := decide) only [namesAlong_word, namesAlong_act]
    rw [hbody]
    simp (disch := decide) only [namesAlong_closing, namesAlong_word]
    rw [Statement.names, Statement.beginnings, List.length_cons, ← Nat.add_assoc,
      Nat.add_right_comm, List.append_assoc]
    rfl
  | .ifThen test body, around, next, w => by
    simp (disch := decide) only [Statement.marks, List.cons_append, List.append_assoc,
      List.nil_append, namesAlong_word]
    rw [namesAlong_unscoped (Computing.unscoped test.computing)]
    simp (disch := decide) only [namesAlong_word, namesAlong_act]
    rw [namesAlong_block body]
    simp (disch := decide) only [namesAlong_act, namesAlong_word]
    rw [Statement.names, Statement.beginnings, List.append_assoc]
  | .ifElse test body other, around, next, w => by
    simp (disch := decide) only [Statement.marks, List.cons_append, List.append_assoc,
      List.nil_append, namesAlong_word]
    rw [namesAlong_unscoped (Computing.unscoped test.computing)]
    simp (disch := decide) only [namesAlong_word, namesAlong_act]
    rw [namesAlong_block body]
    simp (disch := decide) only [namesAlong_act, namesAlong_word]
    rw [namesAlong_block other]
    simp (disch := decide) only [namesAlong_act, namesAlong_word]
    rw [Statement.names, Statement.beginnings, List.length_append, List.append_assoc,
      List.append_assoc, Nat.add_assoc]
  | .assign .., _, _, _ | .assignElement .., _, _, _ | .call .., _, _, _ | .returnValue _, _, _, _
  | .returnNothing, _, _, _ | .global _, _, _, _ | .print _, _, _, _ | .leave _, _, _, _ =>
    Statement.namesAlong_of_isFlat rfl

/-- **The names of a block,** read one token ahead. -/
theorem namesAlong_block : ∀ (b : List Statement) (around : List Nat) (next : Nat) (w : List Mark),
    namesAlong (innermost around) around next (blockMarks b ++ w) =
      blockNames (innermost around) next b ++
        namesAlong (innermost around) around (next + (blockBeginnings b).length) w
  | [], around, next, w => rfl
  | s :: rest, around, next, w => by
    have hrest := namesAlong_block rest around (next + s.beginnings.length) w
    rw [blockMarks, List.append_assoc, List.cons_append, s.namesAlong_marks, hrest, blockNames,
      blockBeginnings, List.length_append, List.append_assoc, Nat.add_assoc]

end

end Walk

section Beginnings

theorem filterMap_opening_word (t : Terminal) (w : List Mark) :
    (word t :: w).filterMap Mark.opening? = w.filterMap Mark.opening? := rfl

theorem filterMap_opening_name (x : String) (w : List Mark) :
    (nameMark x :: w).filterMap Mark.opening? = w.filterMap Mark.opening? := rfl

theorem filterMap_opening_act (a : Action) (w : List Mark) :
    (.act a :: w).filterMap Mark.opening? =
      (if opensScope a then [a] else []) ++ w.filterMap Mark.opening? := by
  cases a <;> rfl

mutual

/-- What begins along the marks of a statement are its functions and its loops. -/
theorem Statement.filterMap_opening : ∀ s : Statement,
    s.marks.filterMap Mark.opening? = s.beginnings
  | .define f params body => by
    have hbody := filterMap_opening_block body
    have hparams := Unscoped.filterMap_opening (unscoped_params params)
    simp [Statement.marks, Statement.beginnings, filterMap_opening_word, filterMap_opening_name,
      filterMap_opening_act, hbody, hparams, opensScope]
  | .loop test body => by
    have hbody := filterMap_opening_block body
    have htest := Unscoped.filterMap_opening (Computing.unscoped test.computing)
    simp [Statement.marks, Statement.beginnings, filterMap_opening_word, filterMap_opening_act,
      hbody, htest, opensScope]
  | .ifThen test body => by
    have hbody := filterMap_opening_block body
    have htest := Unscoped.filterMap_opening (Computing.unscoped test.computing)
    simp [Statement.marks, Statement.beginnings, filterMap_opening_word, filterMap_opening_act,
      hbody, htest, opensScope]
  | .ifElse test body other => by
    have hbody := filterMap_opening_block body
    have hother := filterMap_opening_block other
    have htest := Unscoped.filterMap_opening (Computing.unscoped test.computing)
    simp [Statement.marks, Statement.beginnings, filterMap_opening_word, filterMap_opening_act,
      hbody, hother, htest, opensScope]
  | .assign .. | .assignElement .. | .call .. | .returnValue _ | .returnNothing | .global _
  | .print _ | .leave _ => by
    rw [Unscoped.filterMap_opening (Statement.unscoped rfl),
      (Statement.names_of_isFlat rfl Names.Scopes.outermost 1).2]

theorem filterMap_opening_block : ∀ b : List Statement,
    (blockMarks b).filterMap Mark.opening? = blockBeginnings b
  | [] => rfl
  | s :: rest => by
    rw [blockMarks, List.filterMap_append, filterMap_opening_word, s.filterMap_opening,
      filterMap_opening_block rest, blockBeginnings]

end

end Beginnings

end OnePass.Syntax

namespace OnePass.Derivation

open Grammar (Mark)
open Names (Scopes)
open Syntax (Block blockBeginnings blockMarks blockNames)

variable {config : Config} {source : String} {o : Outcome}

/-- **Names are entered in the scopes they stand in.** Each token of a text is entered in the scope
that is current then, by a step that does nothing else to the state; if it is a name it has a row in
that scope behind the step, which is its latest there and stands for no function. Where there is no
syntax error the text spells a block. The names that are entered are those of the block, in its order and each in
the scope it stands in, where a scope has the number in which its function or its loop begins. -/
theorem entered_of_parse (h : parse config source = .ok o) (he : o.syntaxErrors = []) :
    (entered config source).map Entry.token = o.scan.tokens ∧
      (∀ p ∈ steps config source, ∀ e ∈ enters p, e.scope = p.1.generator.currentScope ∧
        p.2.generator = { p.1.generator with symbols := p.1.generator.symbols.record e.token } ∧
        (e.token.kind = .identifier →
          p.2.generator.symbols.Registered e.scope e.token.lexeme)) ∧
      (∃ b : Block, (∀ s ∈ b, s.Graded) ∧ Mark.Spelled (blockMarks b) o.scan.tokens) ∧
      ∀ b : Block, (∀ s ∈ b, s.Graded) → Mark.Spelled (blockMarks b) o.scan.tokens →
        (entered config source).filterMap Entry.name? = blockNames Scopes.outermost 1 b ∧
          opened config source = (blockBeginnings b).zipIdx 1 := by
  obtain ⟨table, w, m, htable, hd, hs, hw, hg, hend, -⟩ := along_of_parse h he
  obtain ⟨b, rfl, hgraded⟩ := Syntax.exists_block hd hs
  have hspells : ∀ b : Block, (∀ s ∈ b, s.Graded) → Mark.Spelled (blockMarks b) o.scan.tokens →
      (entered config source).filterMap Entry.name? = blockNames Scopes.outermost 1 b ∧
        opened config source = (blockBeginnings b).zipIdx 1 := by
    intro b hb hs
    obtain ⟨table, m, htable, hw, hg, hend, -⟩ :=
      along_of_spelled h (Syntax.derives_block hb) hs
    obtain ⟨-, hnames, hopened⟩ := entered_of_along h htable hw hg hend
    have hwalk := Syntax.namesAlong_block b [] 1 []
    rw [List.append_nil, namesAlong, List.append_nil] at hwalk
    exact ⟨hnames.trans hwalk, by rw [hopened, Syntax.filterMap_opening_block]⟩
  refine ⟨(entered_of_along h htable hw hg hend).1, fun p hp e he => ?_, ⟨b, hgraded, hs⟩, hspells⟩
  obtain ⟨-, hscope, hgen⟩ := record_of_mem_steps hp he
  exact ⟨hscope, hgen, registered_of_mem_steps hp he⟩

/-- A text in which one name stands in the scopes of the text, of a function and of a loop. -/
theorem entered_of_shadowed :
    let source := "y = 1 ; def f ( y ) : while ( 0 < y ) y = y - 1 ; ; x = y ; ; x = y ;"
    ∃ o, parse .standard source = .ok o ∧ o.syntaxErrors = [] ∧
      (entered .standard source).map Entry.token = o.scan.tokens ∧
      (entered .standard source).filterMap Entry.name? = [("y", 0), ("f", 0), ("y", 1), ("y", 2),
        ("y", 2), ("y", 2), ("x", 1), ("y", 1), ("x", 0), ("y", 0)] ∧
      opened .standard source = [(.enterFunction, 1), (.loopBegin, 2)] := by
  intro source
  let body : Block := [.loop ⟨.number "0", false, .name "y"⟩
      [.assign "y" (.value (.combine .sub (.name "y") (.number "1")))],
    .assign "x" (.value (.name "y"))]
  let text : Block := [.assign "y" (.value (.number "1")), .define "f" ["y"] body,
    .assign "x" (.value (.name "y"))]
  have hrun : (parse .standard source).toOption.map (fun o =>
      (o.syntaxErrors, decide (Mark.Spelled (blockMarks text) o.scan.tokens))) =
        some ([], true) := by
    rw [parse_eq, Grammar.table_eq_ok]
    decide +kernel
  have hgraded : ∀ s ∈ text, s.Graded := by
    have hbody : ∀ s ∈ body, s.Graded := by
      simp only [body, List.mem_cons, List.not_mem_nil, or_false, forall_eq_or_imp, forall_eq]
      refine ⟨.loop ⟨.number _, .name _⟩ ?_, .assign (.name _)⟩
      simp only [List.mem_cons, List.not_mem_nil, or_false, forall_eq]
      exact .assign (.combine (.name _) (.number _) (by decide) (by decide))
    simp only [text, List.mem_cons, List.not_mem_nil, or_false, forall_eq_or_imp, forall_eq]
    exact ⟨.assign (.number _), .define hbody, .assign (.name _)⟩
  cases ho : parse .standard source with
  | error e =>
    rw [ho] at hrun
    cases hrun
  | ok o =>
    rw [ho] at hrun
    obtain ⟨hnone, hspelled⟩ := Prod.mk.inj (Option.some.inj hrun)
    obtain ⟨htokens, -, -, hblock⟩ := entered_of_parse ho hnone
    obtain ⟨hnames, hopened⟩ := hblock text hgraded (of_decide_eq_true hspelled)
    exact ⟨o, rfl, hnone, htokens, hnames.trans (by decide), hopened.trans (by decide)⟩

end OnePass.Derivation
