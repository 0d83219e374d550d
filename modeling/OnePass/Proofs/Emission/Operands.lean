import OnePass.Proofs.Emission.Quiet

/-!
# What computing does to the stack

An action that only computes takes its operands from the top of the stack and leaves its
result there. What lies below is not touched.

* `Took`: values were taken from the stack.
* `ends_combine_eq`, `ends_relate_eq`, …: the state an operator leaves, in full.
* `Trades`: what an action makes of the stack. `ends_trades`: it does so.
-/

namespace OnePass.Emission

open Grammar (Action)
open Names Target

/-- **Values are used,** one after another. -/
def Generator.useAll (g : Generator) (line : Nat) (values : List Operand) : Generator :=
  values.foldl (·.useValue line ·) g

/-- **Values were taken** from the stack, which is now `st`, and used. -/
def Took (line : Nat) (values : List Operand) (g : Generator) (st : OperandStack)
    (g' : Generator) : Prop :=
  g' = ({ g with stack := st } : Generator).useAll line values

/-- The generator with an operation on two operands computed. -/
def Generator.operated (g : Generator) (op : Opcode) (left right : Operand) : Generator :=
  (g.withTemp.append (some (.binary op left right (.direct g.memory.tempNext)))).push
    (.direct g.memory.tempNext)

/-- The generator with the address of an element computed: first how far it lies behind the base. -/
def Generator.located (g : Generator) (base index : Operand) : Generator :=
  let offset := g.memory.tempNext
  let unit := Operand.immediate (Operand.word g.memory.unit)
  (g.withTemp.append (some (.binary .mult index unit (.direct offset)))).withTemp.append
    (some (.binary .add base (.direct offset) (.direct (offset + g.memory.unit))))

@[simp] theorem Generator.stack_push (g : Generator) (o : Operand) :
    (g.push o).stack = o :: g.stack := rfl

@[simp] theorem Generator.stack_append (g : Generator) (content : Option Instruction) :
    (g.append content).stack = g.stack := rfl

@[simp] theorem Generator.stack_withTemp (g : Generator) : g.withTemp.stack = g.stack := rfl

@[simp] theorem Generator.stack_markVoid (g : Generator) (cell : Nat) :
    (g.markVoid cell).stack = g.stack := rfl

@[simp] theorem Generator.stack_dropTemp (g : Generator) (cell : Nat) :
    (g.dropTemp cell).stack = g.stack := rfl

@[simp] theorem Generator.stack_appendAll (g : Generator) (code : List Instruction) :
    (g.appendAll code).stack = g.stack := by
  induction code generalizing g with
  | nil => rfl
  | cons i code ih => exact ih (g.append (some i))

@[simp] theorem Generator.stack_operated (g : Generator) (op : Opcode) (left right : Operand) :
    (g.operated op left right).stack = .direct g.memory.tempNext :: g.stack := rfl

@[simp] theorem Generator.stack_located (g : Generator) (base index : Operand) :
    (g.located base index).stack = g.stack := rfl

@[simp] theorem Generator.stack_withPower (g : Generator) (base exponent : Operand) :
    (g.withPower base exponent).stack = .direct g.memory.tempNext :: g.stack := by
  simp only [withPower]
  -- what the code is does not matter, and it is long
  generalize powerCode _ _ _ _ _ _ = code
  rw [stack_push, stack_dropTemp, stack_dropTemp, stack_appendAll]
  rfl

variable {g g' g'' : Generator} {line : Nat} {st st' : OperandStack} {o a b : Operand}
  {values values' : List Operand}

section Values

@[simp] theorem Generator.useAll_nil : g.useAll line [] = g := rfl

@[simp] theorem Generator.useAll_cons :
    g.useAll line (o :: values) = (g.useValue line o).useAll line values := rfl

theorem Generator.useAll_append : g.useAll line (values ++ values') =
    (g.useAll line values).useAll line values' := List.foldl_append

/-- Using values changes nothing but what is void and what has been reported. -/
theorem Generator.useAll_frame (g : Generator) (line : Nat) (values : List Operand) :
    ∃ voids errors, g.useAll line values = { g with voidResults := voids, errors := errors } := by
  induction values generalizing g with
  | nil => exact ⟨g.voidResults, g.errors, rfl⟩
  | cons o values ih =>
    obtain ⟨voids, errors, h⟩ := g.useValue_eq line o
    obtain ⟨voids', errors', h'⟩ := ih (g.useValue line o)
    exact ⟨voids', errors', by rw [useAll_cons, h', h]⟩

/-- Values are used alike whatever is on the stack. -/
theorem Generator.useAll_withStack (g : Generator) (line : Nat) (values : List Operand)
    (st : OperandStack) : ({ g.useAll line values with stack := st } : Generator) =
      ({ g with stack := st } : Generator).useAll line values := by
  induction values generalizing g with
  | nil => rfl
  | cons o values ih =>
    have hone : ({ g.useValue line o with stack := st } : Generator) =
        ({ g with stack := st } : Generator).useValue line o := by
      unfold Generator.useValue
      split
      · dsimp only
        split <;> rfl
      · rfl
    rw [useAll_cons, ih, hone, useAll_cons]

end Values

theorem Took.trans (h : Took line values g st g') (h' : Took line values' g' st' g'') :
    Took line (values ++ values') g st' g'' := by
  rw [Took] at h h' ⊢
  rw [h', h, Generator.useAll_withStack, Generator.useAll_append]

theorem Took.frame (h : Took line values g st g') :
    ∃ voids errors, g' = { g with stack := st, voidResults := voids, errors := errors } := by
  obtain ⟨voids, errors, hused⟩ := Generator.useAll_frame { g with stack := st } line values
  exact ⟨voids, errors, by rw [h, hused]⟩

theorem Took.stack (h : Took line values g st g') : g'.stack = st := by
  obtain ⟨_, _, rfl⟩ := h.frame
  rfl

theorem Took.memory (h : Took line values g st g') : g'.memory = g.memory := by
  obtain ⟨_, _, rfl⟩ := h.frame
  rfl

theorem Took.symbols (h : Took line values g st g') : g'.symbols = g.symbols := by
  obtain ⟨_, _, rfl⟩ := h.frame
  rfl

/-- The top of the stack is taken. -/
theorem took_takeValue (h : g.stack = o :: st) (line : Nat) :
    (g.takeValue line).1 = o ∧ Took line [o] g st (g.takeValue line).2 := by
  rw [Generator.takeValue, Generator.pop_eq h]
  exact ⟨rfl, rfl⟩

theorem took_pop (h : g.stack = o :: st) : g.pop.1 = o ∧ Took line [] g st g.pop.2 := by
  rw [Generator.pop_eq h]
  exact ⟨rfl, rfl⟩

theorem ends_operate_eq {op : Opcode} :
    Ends (operate op a b) g fun _ g' => g' = g.operated op a b := by
  simp only [operate, ends_bind, ends_freshTemp, ends_emit, ends_push]
  exact fun _ _ => rfl

/-- **An operator** leaves its result in a temporary. -/
theorem ends_combine_eq {op : Opcode} (h : g.stack = b :: a :: st) :
    Ends (combine op line) g fun _ g' =>
      ∃ g₁, Took line [b, a] g st g₁ ∧ g' = g₁.operated op a b := by
  simp only [combine, ends_bind, ends_takeValue]
  obtain ⟨hb, h₁⟩ := took_takeValue h line
  obtain ⟨ha, h₂⟩ := took_takeValue h₁.stack line
  rw [hb, ha]
  exact ends_operate_eq.mono fun _ _ heq => ⟨_, h₁.trans h₂, heq⟩

/-- **A relation** finds its operator between its two sides. -/
theorem ends_relate_eq {marker : Operand} (h : g.stack = b :: marker :: a :: st) :
    Ends (relate line) g fun _ g' =>
      ∃ g₁, Took line [b, a] g st g₁ ∧ g' = g₁.operated (relation marker) a b := by
  simp only [relate, ends_bind, ends_takeValue, ends_pop]
  obtain ⟨hb, h₁⟩ := took_takeValue h line
  obtain ⟨hmarker, h₂⟩ := took_pop h₁.stack
  obtain ⟨ha, h₃⟩ := took_takeValue h₂.stack line
  rw [hb, hmarker, ha]
  exact ends_operate_eq.mono fun _ _ heq => ⟨_, (h₁.trans h₂).trans h₃, heq⟩

/-- **A power** takes its base and exponent. -/
theorem ends_raise_eq {base exponent : Operand} (h : g.stack = exponent :: base :: st) :
    Ends (raise line) g fun _ g' =>
      ∃ g₁, Took line [exponent, base] g st g₁ ∧ g' = g₁.withPower base exponent := by
  obtain ⟨hexponent, h₁⟩ := took_takeValue h line
  obtain ⟨hbase, h₂⟩ := took_takeValue h₁.stack line
  refine ends_raise (Prod.ext hexponent rfl) (Prod.ext hbase rfl) fun _ _ => ?_
  exact ⟨_, h₁.trans h₂, rfl⟩

/-- **An element** is named by the later of two temporaries. -/
theorem ends_element_eq {base index : Operand} {asValue : Bool} (h : g.stack = index :: base :: st) :
    Ends (element line asValue) g fun _ g' => ∃ g₁, Took line [index, base] g st g₁ ∧
      g' = (g₁.located base index).push
        (if asValue then .indirect (g₁.memory.tempNext + g₁.memory.unit)
          else .direct (g₁.memory.tempNext + g₁.memory.unit)) := by
  simp only [element, ends_bind, ends_takeValue, ends_get, ends_freshTemp, ends_emit, ends_push]
  obtain ⟨hindex, h₁⟩ := took_takeValue h line
  obtain ⟨hbase, h₂⟩ := took_takeValue h₁.stack line
  rw [hindex, hbase]
  exact fun _ _ _ _ => ⟨_, h₁.trans h₂, rfl⟩

/-- A cell below the temporaries is written itself. -/
theorem writtenThrough_direct {m : Memory} {cell : Nat} (h : cell < m.tempsFrom) :
    writtenThrough m (.direct cell) = .direct cell := by
  rw [writtenThrough, if_neg]
  rintro ⟨-, hin⟩
  have hword : (Operand.direct cell).value ≤ cell := by
    simp only [Operand.direct, Operand.word]
    generalize Operand.wordCount = count
    rw [Int.bmod_def, ← Int.natCast_emod]
    have hmod := Nat.mod_le cell count
    split <;> omega
  rw [Memory.inTempZone, Bool.and_eq_true, decide_eq_true_eq] at hin
  omega

/-- **An assignment** writes its target, through it if that holds an address. -/
theorem ends_store_eq {value target : Operand} (h : g.stack = value :: target :: st) :
    Ends (store line) g fun _ g' => ∃ g₁, Took line [value] g st g₁ ∧
      g' = g₁.append (some (.assign value (writtenThrough g₁.memory target))) := by
  simp only [store, ends_bind, ends_takeValue, ends_pop, ends_get, ends_emit]
  obtain ⟨hvalue, h₁⟩ := took_takeValue h line
  obtain ⟨htarget, h₂⟩ := took_pop h₁.stack
  rw [hvalue, htarget]
  exact fun _ => ⟨_, h₁.trans h₂, rfl⟩

theorem ends_printValue_eq {value : Operand} (h : g.stack = value :: st) :
    Ends (printValue line) g fun _ g' => ∃ g₁, Took line [value] g st g₁ ∧
      g' = g₁.append (some (.print value)) := by
  simp only [printValue, ends_bind, ends_takeValue, ends_emit]
  obtain ⟨hvalue, h₁⟩ := took_takeValue h line
  rw [hvalue]
  exact fun _ => ⟨_, h₁, rfl⟩

/-- **What an action that only computes makes of the stack.** -/
def Trades : Action → OperandStack → OperandStack → Prop
  | .pushId, st, st' | .pushTarget, st, st' | .pushNumber, st, st' | .listBegin, st, st'
  | .markEq, st, st' | .markLt, st, st' => ∃ o, st' = o :: st
  | .checkDefined, st, st' | .global, st, st' => st' = st
  | .elementAddress, st, st' | .elementValue, st, st' | .add, st, st' | .sub, st, st'
  | .mult, st, st' | .power, st, st' => ∀ a b rest, st = a :: b :: rest → ∃ o, st' = o :: rest
  | .compare, st, st' => ∀ a marker b rest, st = a :: marker :: b :: rest → ∃ o, st' = o :: rest
  | .assign, st, st' => ∀ a b rest, st = a :: b :: rest → st' = rest
  | .listItem, st, st' | .print, st, st' | .discardResult, st, st' =>
    ∀ a rest, st = a :: rest → st' = rest
  | .beginCall, st, st' => st' = .immediate 0 :: st
  | .takeArgument, st, st' => ∀ a count rest, st = a :: count :: rest →
    st' = .immediate count.increment :: a :: rest
  | .dispatch, st, st' => ∀ (values : List Operand) rest,
    st = .immediate values.length :: (values ++ rest) → ∃ o, st' = o :: rest
  | _, _, _ => True

theorem stack_bindFresh {name : String} :
    Ends (bindFresh name) g fun _ g' => g'.stack = g.stack := by
  simp only [bindFresh, ends_bind, ends_modifyGet, ends_modify, ends_pure, ends_onMemory]
  exact fun _ _ _ => rfl

theorem stack_readName {name : String} :
    Ends (readName name) g fun _ g' => ∃ o, g'.stack = o :: g.stack := by
  simp only [readName, ends_bind, ends_get]
  split
  · simp only [ends_bind, ends_pure, ends_push]
    exact ⟨_, rfl⟩
  · simp only [ends_bind, ends_push]
    exact stack_bindFresh.mono fun cell g' h => ⟨.direct cell, by rw [Generator.stack_push, h]⟩

theorem stack_assignTo {name : String} :
    Ends (assignTo name) g fun _ g' => ∃ o, g'.stack = o :: g.stack := by
  simp only [assignTo, ends_bind, ends_get]
  split
  · simp only [ends_bind, ends_pure, ends_push]
    exact ⟨_, rfl⟩
  · simp only [ends_bind, ends_push]
    exact stack_bindFresh.mono fun cell g' h => ⟨.direct cell, by rw [Generator.stack_push, h]⟩

theorem stack_requireCell {name : String} :
    Ends (requireCell name line) g fun _ g' => g'.stack = g.stack := by
  simp only [requireCell, ends_bind, ends_get]
  split
  · exact ends_report.2 rfl
  · exact (ends_pure ()).2 rfl

theorem stack_bindGlobal {name : String} :
    Ends (bindGlobal name line) g fun _ g' => g'.stack = g.stack := by
  simp only [bindGlobal, ends_bind, ends_get]
  split
  · exact (ends_pure ()).2 rfl
  · split
    · exact ends_report.2 rfl
    · simp only [ends_bind, ends_modifyGet, ends_modify]
      rfl

theorem stack_element {asValue : Bool} (h : g.stack = a :: b :: st) :
    Ends (element line asValue) g fun _ g' => ∃ o, g'.stack = o :: st := by
  simp only [element, ends_bind, ends_takeValue, ends_get, ends_freshTemp, ends_emit, ends_push]
  obtain ⟨-, h₁⟩ := took_takeValue h line
  obtain ⟨-, h₂⟩ := took_takeValue h₁.stack line
  intro _ _ _ _
  simp only [Generator.stack_push, Generator.stack_append, Generator.stack_withTemp, h₂.stack]
  exact ⟨_, rfl⟩

theorem stack_storeItem (h : g.stack = a :: st) :
    Ends (storeItem line) g fun _ g' => g'.stack = st := by
  simp only [storeItem, ends_bind, ends_takeValue, ends_onMemory, ends_emit]
  obtain ⟨-, h₁⟩ := took_takeValue h line
  exact fun _ _ _ _ => h₁.stack

theorem stack_countArgument {count : Operand} (h : g.stack = a :: count :: st) :
    Ends countArgument g fun _ g' => g'.stack = .immediate count.increment :: a :: st := by
  simp only [countArgument, ends_bind, ends_modifyGet, ends_push]
  simp [h, OperandStack.take?, OperandStack.at?, Generator.push, OperandStack.push]

theorem stack_callFunction {row : Nat} {info : FunctionInfo} {arguments : List Operand} :
    Ends (callFunction row info arguments) g fun _ g' => ∃ o, g'.stack = o :: g.stack := by
  simp only [callFunction, ends_bind, ends_get]
  refine (ends_forM (P := fun g' => g'.stack = g.stack) rfl ?_).mono ?_
  · rintro ⟨argument, cell⟩ - g₁ h
    rw [ends_emit]
    exact fun _ => h
  intro _ g₁ h
  refine ends_jumpInto.mono ?_
  rintro _ g₂ rfl
  simp only [ends_freshTemp, ends_emit]
  intro _ _
  split
  · simp only [ends_bind, ends_modify, ends_push, Generator.stack_push, Generator.stack_markVoid,
      Generator.stack_append, Generator.stack_withTemp, h]
    exact ⟨_, rfl⟩
  · simp only [ends_push, Generator.stack_push, Generator.stack_append, Generator.stack_withTemp, h]
    exact ⟨_, rfl⟩

theorem stack_resolveCall {values : List Operand}
    (h : g.stack = .immediate values.length :: (values ++ st)) :
    Ends (resolveCall line) g fun _ g' => ∃ o, g'.stack = o :: st := by
  have hcount := argumentCount_eq h
  rw [Generator.argumentCount, Generator.pop_eq h] at hcount
  simp only [resolveCall, ends_bind, ends_pop, ends_get, ends_modify, Generator.pop_eq h]
  rw [hcount]
  refine (ends_takeValues rfl).mono ?_
  rintro arguments g' ⟨-, voids, errors, rfl⟩
  split
  · exact stack_callFunction
  · simp only [ends_bind, ends_report, ends_push]
    exact ⟨_, rfl⟩

theorem stack_dropResult (h : g.stack = a :: st) :
    Ends dropResult g fun _ g' => g'.stack = st := by
  simp only [dropResult, ends_bind, ends_pop, ends_get, Generator.pop_eq h]
  split
  · split
    · simp only [ends_bind, ends_modify, ends_dropTemp]
      rfl
    · exact (ends_pure ()).2 rfl
  · exact (ends_pure ()).2 rfl

/-- **What computing makes of the stack.** -/
theorem ends_trades (a : Action) (lexeme : String) :
    Ends (perform a lexeme line) g fun _ g' => Trades a g.stack g'.stack := by
  have hcombine : ∀ {op : Opcode}, Ends (combine op line) g fun _ g' =>
      ∀ a b rest, g.stack = a :: b :: rest → ∃ o, g'.stack = o :: rest := by
    intro op u g' hu a b rest h
    obtain ⟨g₁, h₁, rfl⟩ := ends_combine_eq h u g' hu
    exact ⟨_, by rw [Generator.stack_operated, h₁.stack]⟩
  have helement : ∀ {asValue : Bool}, Ends (element line asValue) g fun _ g' =>
      ∀ a b rest, g.stack = a :: b :: rest → ∃ o, g'.stack = o :: rest :=
    fun u g' hu a b rest h => stack_element h u g' hu
  cases a with
  | pushId => exact stack_readName
  | pushTarget => exact stack_assignTo
  | pushNumber => exact ends_push.2 ⟨_, rfl⟩
  | listBegin =>
    simp only [perform, startList, ends_bind, ends_get, ends_push]
    exact ⟨_, rfl⟩
  | markEq => exact ends_push.2 ⟨_, rfl⟩
  | markLt => exact ends_push.2 ⟨_, rfl⟩
  | checkDefined => exact stack_requireCell
  | global => exact stack_bindGlobal
  | elementAddress => exact helement
  | elementValue => exact helement
  | add => exact hcombine
  | sub => exact hcombine
  | mult => exact hcombine
  | power =>
    intro u g' hu a b rest h
    obtain ⟨g₁, h₁, rfl⟩ := ends_raise_eq h u g' hu
    exact ⟨_, by rw [Generator.stack_withPower, h₁.stack]⟩
  | compare =>
    intro u g' hu a marker b rest h
    obtain ⟨g₁, h₁, rfl⟩ := ends_relate_eq h u g' hu
    exact ⟨_, by rw [Generator.stack_operated, h₁.stack]⟩
  | assign =>
    intro u g' hu a b rest h
    obtain ⟨g₁, h₁, rfl⟩ := ends_store_eq h u g' hu
    exact h₁.stack
  | listItem => exact fun u g' hu a rest h => stack_storeItem h u g' hu
  | print =>
    intro u g' hu a rest h
    obtain ⟨g₁, h₁, rfl⟩ := ends_printValue_eq h u g' hu
    exact h₁.stack
  | discardResult => exact fun u g' hu a rest h => stack_dropResult h u g' hu
  | beginCall =>
    simp only [perform, startCall, ends_bind, ends_push, ends_modify]
    rfl
  | takeArgument => exact fun u g' hu a count rest h => stack_countArgument h u g' hu
  | dispatch => exact fun u g' hu values rest h => stack_resolveCall h u g' hu
  | _ => exact fun _ _ _ => trivial

end OnePass.Emission
