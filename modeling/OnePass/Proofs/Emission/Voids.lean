import OnePass.Proofs.Emission.Exchange
import OnePass.Proofs.Emission.Resolving

/-!
# Void results on the stack

A call of a function that gives no value leaves a temporary that is marked as void until it is used
or dropped. Operands are used in the reverse order of their results, so that the marks lie upon each
other as the operands do, and each mark is taken away with its own operand. No other action adds
one, as fresh temporaries lie above all that are marked.

* `Piled`: operands with their marks. `Generator.useAll_piled`: **what using them takes away and
  reports.**
* `Heedless`: a state with the same marks. `Ignores`: a step that leaves them alone.
  `ignores_perform`: **actions that use no values do.**
* `Uses`: a step that uses values. `Leaves`: one that also leaves a result. `leaves_combine`,
  `uses_store` and the others.
* `voids_called`, `ends_dropResult_piled`: the mark of a call, and what becomes of a dropped one.
-/

namespace OnePass.Emission

open Grammar (Action)
open Names Target

/-- The uses of void results that have been reported. -/
def Generator.voidErrors (g : Generator) : List SemanticError :=
  g.errors.toList.filter fun e => e.fault = .voidOperand

/-- **Operands with their marks,** the one on top first. So many of them are void, and their marks lie
on those before. -/
inductive Piled : List Operand → Nat → List Nat → List Nat → Prop
  | nil {marks : List Nat} : Piled [] 0 marks marks
  | value {o : Operand} {values : List Operand} {count : Nat} {before marks : List Nat}
      (ho : ∀ cell, Generator.directCell? o = some cell → cell ∉ marks)
      (h : Piled values count before marks) : Piled (o :: values) count before marks
  | void {o : Operand} {values : List Operand} {count cell : Nat} {before marks : List Nat}
      (ho : Generator.directCell? o = some cell) (hc : cell ∉ marks)
      (h : Piled values count before marks) :
      Piled (o :: values) (count + 1) before (cell :: marks)

variable {g g' g'' : Generator} {line count row : Nat} {before marks marks' : List Nat}
  {o a b : Operand} {values values' : List Operand} {st : OperandStack} {name : String}
  {info : FunctionInfo}

section Piles

theorem Piled.append {count' : Nat} (h : Piled values count marks marks')
    (h' : Piled values' count' before marks) :
    Piled (values ++ values') (count + count') before marks' := by
  induction h with
  | nil => simpa using h'
  | value ho _ ih => exact .value ho (ih h')
  | void ho hc _ ih =>
    rw [Nat.add_right_comm]
    exact .void ho hc (ih h')

/-- Nothing lies below the marks of what is piled that was not there. -/
theorem Piled.subset (h : Piled values count before marks) : before ⊆ marks := by
  induction h with
  | nil => exact List.Subset.refl _
  | value _ _ ih => exact ih
  | void _ _ _ ih => exact List.subset_cons_of_subset _ ih

/-- An operand on top that names no cell can be taken away. -/
theorem Piled.tail (ha : Generator.directCell? a = none)
    (h : Piled (a :: values) count before marks) : Piled values count before marks := by
  cases h with
  | value _ h => exact h
  | void hcell =>
    rw [ha] at hcell
    cases hcell

/-- One that names no cell can be left out. -/
theorem Piled.skip (hb : Generator.directCell? b = none)
    (h : Piled (a :: b :: values) count before marks) : Piled (a :: values) count before marks := by
  cases h with
  | value ho h =>
    cases h with
    | value _ h => exact .value ho h
    | void hcell =>
      rw [hb] at hcell
      cases hcell
  | void ho hc h =>
    cases h with
    | value _ h => exact .void ho hc h
    | void hcell =>
      rw [hb] at hcell
      cases hcell

/-- The only operand there is may be void. -/
theorem Piled.single (h : Piled [o] count before marks) :
    (count = 0 ∧ marks = before ∧ ∀ cell, Generator.directCell? o = some cell → cell ∉ marks) ∨
      ∃ cell, count = 1 ∧ Generator.directCell? o = some cell ∧ cell ∉ before ∧
        marks = cell :: before := by
  rcases h with _ | ⟨ho, ⟨⟩⟩ | ⟨ho, hc, ⟨⟩⟩
  · exact .inl ⟨rfl, rfl, ho⟩
  · exact .inr ⟨_, rfl, ho, hc, rfl⟩

/-- Operands none of which is void leave the marks as they were. -/
theorem Piled.eq_of_zero (h : Piled values 0 before marks) : marks = before := by
  generalize hcount : 0 = count at h
  induction h with
  | nil => rfl
  | value _ _ ih => exact ih hcount
  | void => cases hcount

/-- No mark is taken away where there is none. -/
theorem filter_ne_of_not_mem {cell : Nat} {marks : List Nat} (h : cell ∉ marks) :
    marks.filter (· ≠ cell) = marks := by
  refine List.filter_eq_self.2 fun other hother => decide_eq_true ?_
  rintro rfl
  exact h hother

/-- The mark of a cell is taken away from the others. -/
theorem filter_ne_cons {cell : Nat} {marks : List Nat} (h : cell ∉ marks) :
    (cell :: marks).filter (· ≠ cell) = marks := by
  rw [List.filter_cons_of_neg (by simp), filter_ne_of_not_mem h]

/-- **The marks of operands that are used** are taken away, and each is reported once. -/
theorem Generator.useAll_piled (line : Nat) (h : Piled values count before g.voidResults) :
    (g.useAll line values).voidResults = before ∧ (g.useAll line values).errors.toList =
      g.errors.toList ++ List.replicate count ⟨line, .voidOperand⟩ := by
  generalize hmarks : g.voidResults = marks at h
  induction h generalizing g with
  | nil => exact ⟨hmarks, (List.append_nil _).symm⟩
  | @value o values count before marks ho _ ih =>
    have hsame : g.useValue line o = g := by
      unfold useValue
      cases hcell : directCell? o with
      | none => rfl
      | some cell =>
        have hnot : g.voidResults.contains cell = false := by
          rw [hmarks, Bool.eq_false_iff]
          simpa using ho cell hcell
        simp only [hnot, Bool.false_eq_true, if_false]
    -- a value that is not void goes unnoticed
    rw [useAll_cons, hsame]
    exact ih hmarks
  | @void o values count cell before marks ho hc _ ih =>
    have hused : g.useValue line o = (g.clearVoid cell).report line .voidOperand := by
      unfold useValue
      simp [ho, hmarks]
    have hcleared : ((g.clearVoid cell).report line .voidOperand).voidResults = marks := by
      change g.voidResults.filter _ = marks
      rw [hmarks]
      exact filter_ne_cons hc
    obtain ⟨hvoids, herrors⟩ := ih hcleared
    rw [useAll_cons, hused]
    refine ⟨hvoids, herrors.trans ?_⟩
    change (g.errors.push _).toList ++ _ = _
    rw [Array.toList_push, List.append_assoc, List.replicate_succ]
    rfl

/-- **Values that are taken** leave the marks that lay below theirs. -/
theorem Took.piled (h : Took line values g st g') (hp : Piled values count before g.voidResults) :
    g'.voidResults = before ∧
      g'.voidErrors = g.voidErrors ++ List.replicate count ⟨line, .voidOperand⟩ := by
  obtain ⟨hvoids, herrors⟩ := Generator.useAll_piled (g := { g with stack := st }) line hp
  rw [← show g' = Generator.useAll _ _ _ from h] at hvoids herrors
  refine ⟨hvoids, ?_⟩
  rw [Generator.voidErrors, herrors, List.filter_append, List.filter_replicate_of_pos (by simp)]
  rfl

end Piles

section Heedless

/-- **A state with the marks of another,** which all lie below the temporary that is next. -/
structure Heedless (g g' : Generator) : Prop where
  voids : (∀ cell ∈ g.voidResults, cell < g.memory.tempNext) → g'.voidResults = g.voidResults
  errors : g'.voidErrors = g.voidErrors
  temps : g.memory.tempNext ≤ g'.memory.tempNext

theorem Heedless.of_eq (hv : g'.voidResults = g.voidResults) (he : g'.errors = g.errors)
    (ht : g'.memory.tempNext = g.memory.tempNext) : Heedless g g' :=
  ⟨fun _ => hv, by rw [Generator.voidErrors, he]; rfl, ht.ge⟩

theorem Heedless.refl (g : Generator) : Heedless g g := .of_eq rfl rfl rfl

theorem Heedless.trans (h : Heedless g g') (h' : Heedless g' g'') : Heedless g g'' where
  voids hlow := by
    have heq := h.voids hlow
    refine (h'.voids fun cell hc => ?_).trans heq
    exact Nat.lt_of_lt_of_le (hlow cell (heq ▸ hc)) h.temps
  errors := h'.errors.trans h.errors
  temps := Nat.le_trans h.temps h'.temps

theorem heedless_push (g : Generator) (o : Operand) : Heedless g (g.push o) := .of_eq rfl rfl rfl

theorem heedless_append (g : Generator) (content : Option Instruction) :
    Heedless g (g.append content) := .of_eq rfl rfl rfl

theorem heedless_withTemp (g : Generator) : Heedless g g.withTemp where
  voids hlow := filter_ne_of_not_mem fun hc => absurd (hlow _ hc) (Nat.lt_irrefl _)
  errors := rfl
  temps := Nat.le_add_right _ _

theorem heedless_appendAll (g : Generator) (code : List Instruction) :
    Heedless g (g.appendAll code) := by
  induction code generalizing g with
  | nil => exact .refl g
  | cons i code ih => exact (heedless_append g (some i)).trans (ih _)

/-- **A step that leaves the marks alone.** -/
def Ignores {α : Type} (x : Emit α) : Prop := ∀ g, Ends x g fun _ g' => Heedless g g'

section Steps

variable {α β : Type} {x : Emit α} {fault : SemanticFault}

theorem ignores_pure (a : α) : Ignores (pure a) := fun g => (ends_pure a).2 (.refl g)

theorem ignores_bind {f : α → Emit β} (hx : Ignores x) (hf : ∀ a, Ignores (f a)) :
    Ignores (x >>= f) := fun g =>
  ends_bind.2 ((hx g).mono fun a g₁ h₁ => (hf a g₁).mono fun _ _ h₂ => h₁.trans h₂)

theorem ignores_get : Ignores get := fun g => ends_get.2 (.refl g)

theorem ignores_modify {f : Generator → Generator} (h : ∀ g, Heedless g (f g)) :
    Ignores (modify f) := fun g => ends_modify.2 (h g)

theorem ignores_modifyGet {f : Generator → α × Generator} (h : ∀ g, Heedless g (f g).2) :
    Ignores (modifyGet f) := fun g => ends_modifyGet.2 (h g)

theorem ignores_defect {e : Defect} : Ignores (defect e : Emit α) := fun _ => ends_defect

theorem ignores_forM {γ : Type} {f : γ → Emit Unit} {items : List γ}
    (hf : ∀ x, Ignores (f x)) : Ignores (items.forM f) := fun g =>
  ends_forM (P := Heedless g) (.refl g) fun x _ g₁ h₁ =>
    (hf x g₁).mono fun _ _ h₂ => h₁.trans h₂

theorem ignores_push : Ignores (push o) := ignores_modify fun g => heedless_push g o

theorem ignores_pop : Ignores pop := ignores_modifyGet fun g => by
  obtain ⟨st, hst⟩ := g.pop_frame
  rw [hst]
  exact .of_eq rfl rfl rfl

theorem heedless_report (h : fault ≠ .voidOperand) (g : Generator) (line : Nat) :
    Heedless g (g.report line fault) where
  voids _ := rfl
  errors := by
    change (g.errors.push _).toList.filter _ = _
    rw [Array.toList_push, List.filter_append, List.filter_cons_of_neg (by simpa using h)]
    exact List.append_nil _
  temps := Nat.le_refl _

theorem ignores_report (h : fault ≠ .voidOperand) : Ignores (report line fault) :=
  ignores_modify fun g => heedless_report h g line

theorem ignores_emit {i : Instruction} : Ignores (emit i) := fun _ =>
  ends_emit.2 fun _ => .of_eq rfl rfl rfl

theorem ignores_reserve : Ignores (onMemory (·.reserve)) := fun _ =>
  ends_reserve.2 fun _ => .of_eq rfl rfl rfl

theorem ignores_settle {slot : Option Nat} {i : Instruction} : Ignores (settle slot i) := by
  cases slot with
  | none => exact ignores_pure ()
  | some slot =>
    intro g
    rw [ends_settle]
    split
    · exact .of_eq rfl rfl rfl
    · exact .refl g

theorem ignores_takeNextCell : Ignores (onMemory (·.takeNextCell)) := fun g => by
  rw [ends_onMemory]
  intro cell m hm
  refine .of_eq rfl rfl ?_
  rw [Memory.takeNextCell_eq] at hm
  split at hm
  · cases hm
  · cases hm
    rfl

theorem ignores_takeCell : Ignores (onMemory (·.takeCell)) := fun g => by
  rw [ends_onMemory]
  intro cell m hm
  rw [Memory.takeCell_eq] at hm
  split at hm
  · cases hm
    exact .of_eq rfl rfl rfl
  · exact (ends_onMemory.1 (ignores_takeNextCell g)) cell m hm

end Steps

section Names

theorem ignores_bindFresh : Ignores (bindFresh name) :=
  ignores_bind (ignores_modifyGet fun _ => .of_eq rfl rfl rfl) fun _ =>
    ignores_bind ignores_takeCell fun _ =>
      ignores_bind (ignores_modify fun _ => .of_eq rfl rfl rfl) fun _ => ignores_pure _

theorem ignores_readName : Ignores (readName name) := by
  refine ignores_bind ignores_get fun g => ?_
  split
  · exact ignores_bind (ignores_pure _) fun _ => ignores_push
  · exact ignores_bind ignores_bindFresh fun _ => ignores_push

theorem ignores_assignTo : Ignores (assignTo name) := by
  refine ignores_bind ignores_get fun g => ?_
  split
  · exact ignores_bind (ignores_pure _) fun _ => ignores_push
  · exact ignores_bind ignores_bindFresh fun _ => ignores_push

theorem ignores_requireCell : Ignores (requireCell name line) := by
  refine ignores_bind ignores_get fun g => ?_
  split
  · exact ignores_report (by simp)
  · exact ignores_pure ()

theorem ignores_bindGlobal : Ignores (bindGlobal name line) := by
  refine ignores_bind ignores_get fun g => ?_
  split
  · exact ignores_pure ()
  · split
    · exact ignores_report (by simp)
    · exact ignores_bind (ignores_modifyGet fun _ => .of_eq rfl rfl rfl) fun _ =>
        ignores_modify fun _ => .of_eq rfl rfl rfl

end Names

section Control

theorem ignores_countArgument : Ignores countArgument := by
  refine ignores_bind (ignores_modifyGet fun g => ?_) fun _ => ignores_push
  split <;> exact .of_eq rfl rfl rfl

theorem ignores_startCall : Ignores (startCall name) :=
  ignores_bind ignores_push fun _ => ignores_modify fun _ => .of_eq rfl rfl rfl

theorem ignores_holdSlot : Ignores holdSlot :=
  ignores_bind ignores_reserve fun _ => ignores_bind ignores_push fun _ =>
    ignores_modify fun _ => .of_eq rfl rfl rfl

theorem ignores_heldSlot : Ignores heldSlot :=
  ignores_bind (ignores_modify fun _ => .of_eq rfl rfl rfl) fun _ =>
    ignores_bind ignores_pop fun _ => ignores_pure _

theorem ignores_settleCondition {distance : Nat} : Ignores (settleCondition distance) :=
  ignores_bind ignores_heldSlot fun _ => ignores_bind ignores_pop fun _ =>
    ignores_bind ignores_get fun _ => ignores_settle

theorem ignores_loopRecord : Ignores loopRecord := by
  refine ignores_bind ignores_get fun g => ?_
  dsimp only
  split
  · exact ignores_defect
  · split
    · exact ignores_pure _
    · exact ignores_bind (ignores_modify fun _ => .of_eq rfl rfl rfl) fun _ => ignores_pure _
    · exact ignores_defect

theorem ignores_startLoop : Ignores startLoop :=
  ignores_bind ignores_get fun _ => ignores_bind ignores_loopRecord fun _ =>
    ignores_bind (ignores_modify fun _ => .of_eq rfl rfl rfl) fun _ =>
      ignores_modify fun _ => .of_eq rfl rfl rfl

theorem ignores_settleLoop {slot : Option Nat} {condition : Operand} {closed : ClosedLoop} :
    Ignores (settleLoop slot condition closed) :=
  ignores_bind ignores_emit fun _ => ignores_bind ignores_get fun _ =>
    ignores_bind ignores_settle fun _ =>
      ignores_bind (ignores_forM fun _ => ignores_settle) fun _ =>
        ignores_forM fun _ => ignores_settle

theorem ignores_endLoop : Ignores endLoop := by
  refine ignores_bind ignores_heldSlot fun _ => ignores_bind ignores_pop fun _ =>
    ignores_bind ignores_loopRecord fun _ => ?_
  have hleave : Ignores (modify (·.leaveScope)) := ignores_modify fun _ => .of_eq rfl rfl rfl
  dsimp only
  split
  · exact ignores_bind (ignores_modify fun _ => .of_eq rfl rfl rfl) fun _ =>
      ignores_bind ignores_settleLoop fun _ => hleave
  · exact ignores_bind (ignores_pure ()) fun _ => hleave

theorem ignores_leaveLoop {outside : SemanticFault} (h : outside ≠ .voidOperand)
    {add : LoopRecord → Nat → LoopRecord} : Ignores (leaveLoop line outside add) := by
  refine ignores_bind ignores_get fun g => ?_
  split
  · exact ignores_bind ignores_reserve fun _ => ignores_bind ignores_loopRecord fun _ =>
      ignores_modify fun _ => .of_eq rfl rfl rfl
  · exact ignores_report h

end Control

section Functions

theorem ignores_functionOn : Ignores (functionOn row) := by
  refine ignores_bind ignores_get fun g => ?_
  dsimp only
  split
  · exact ignores_pure _
  · exact ignores_defect

theorem ignores_startFunction : Ignores (startFunction name) :=
  ignores_bind ignores_reserve fun _ => ignores_bind ignores_takeCell fun _ =>
    ignores_bind ignores_takeCell fun _ =>
      ignores_bind (ignores_modifyGet fun _ => .of_eq rfl rfl rfl) fun _ =>
        ignores_bind ignores_get fun _ =>
          ignores_bind (ignores_modify fun _ => .of_eq rfl rfl rfl) fun _ =>
            ignores_modify fun _ => .of_eq rfl rfl rfl

theorem ignores_addParameter : Ignores (addParameter name) :=
  ignores_bind ignores_bindFresh fun _ => ignores_modify fun _ => .of_eq rfl rfl rfl

theorem ignores_giveMeaning {change : Meaning → Except MeaningError Meaning} :
    Ignores (giveMeaning row change) := by
  refine ignores_bind ignores_get fun g => ?_
  split
  · exact ignores_pure ()
  · split
    · exact ignores_modify fun _ => .of_eq rfl rfl rfl
    · exact ignores_defect

theorem ignores_publish : Ignores publish := by
  refine ignores_bind ignores_get fun g => ?_
  split
  · exact ignores_pure ()
  · split
    · exact ignores_pure ()
    · exact ignores_bind (ignores_modify fun _ => .of_eq rfl rfl rfl) fun _ => ignores_giveMeaning

theorem ignores_returningFrom : Ignores returningFrom := by
  refine ignores_bind ignores_get fun g => ?_
  split
  · exact ignores_pure _
  · split
    · exact ignores_bind (ignores_modify fun _ => .of_eq rfl rfl rfl) fun _ => ignores_pure _
    · exact ignores_bind (ignores_pure _) fun _ => ignores_pure _

theorem ignores_emitReturn {value : Operand} : Ignores (emitReturn info value) :=
  ignores_bind ignores_emit fun _ => ignores_emit

theorem ignores_returnNothing : Ignores returnNothing := by
  refine ignores_bind ignores_returningFrom fun row => ?_
  split
  · exact ignores_pure ()
  · exact ignores_bind ignores_functionOn fun _ => ignores_emit

theorem ignores_endFunction : Ignores endFunction := by
  have hclose : ∀ d : Definition, Ignores (do
      settle (some d.aroundSlot) (.jump (← get).programNext)
      modify (·.leaveScope)
      modify ({ · with lastDefined := some d.row })) := fun d =>
    ignores_bind ignores_get fun _ => ignores_bind ignores_settle fun _ =>
      ignores_bind (ignores_modify fun _ => .of_eq rfl rfl rfl) fun _ =>
        ignores_modify fun _ => .of_eq rfl rfl rfl
  refine ignores_bind ignores_publish fun _ => ignores_bind ignores_get fun g => ?_
  split
  · exact ignores_pure ()
  · refine ignores_bind (ignores_modify fun _ => .of_eq rfl rfl rfl) fun _ => ?_
    split
    · exact ignores_bind ignores_functionOn fun _ => ignores_bind ignores_emitReturn fun _ =>
        hclose _
    · exact hclose _

theorem ignores_retireRivals : Ignores (retireRivals line) := by
  refine ignores_bind ignores_get fun g => ?_
  dsimp only
  split
  · exact ignores_pure ()
  · refine ignores_bind (ignores_modify fun _ => .of_eq rfl rfl rfl) fun _ => ignores_forM fun other => ?_
    exact ignores_bind (ignores_report (by simp)) fun _ => ignores_modify fun g =>
      .of_eq rfl rfl (Memory.tempNext_freeCells _ _)

end Functions

/-- Actions that use values, call functions or drop their results. -/
def isMinding : Action → Bool
  | .elementAddress | .elementValue | .listItem | .add | .sub | .mult | .power | .compare | .assign
  | .print | .dispatch | .discardResult | .returnValue => true
  | _ => false

/-- **Actions that use no values** leave the marks alone. -/
theorem ignores_perform {a : Action} (ha : isMinding a = false) (lexeme : String) (line : Nat) :
    Ignores (perform a lexeme line) := by
  cases a with
  | pushId => exact ignores_readName
  | pushNumber => exact ignores_push
  | pushTarget => exact ignores_assignTo
  | checkDefined => exact ignores_requireCell
  | listBegin => exact ignores_bind ignores_get fun _ => ignores_push
  | markEq => exact ignores_push
  | markLt => exact ignores_push
  | global => exact ignores_bindGlobal
  | breakLoop =>
    have h : SemanticFault.breakOutsideLoop ≠ .voidOperand := nofun
    exact ignores_leaveLoop h
  | continueLoop =>
    have h : SemanticFault.continueOutsideLoop ≠ .voidOperand := nofun
    exact ignores_leaveLoop h
  | save => exact ignores_holdSlot
  | falseJump => exact ignores_settleCondition
  | falseJumpSave => exact ignores_bind ignores_settleCondition fun _ => ignores_holdSlot
  | jump =>
    exact ignores_bind ignores_heldSlot fun _ => ignores_bind ignores_get fun _ => ignores_settle
  | loopBegin => exact ignores_startLoop
  | loopEnd => exact ignores_endLoop
  | beginCall => exact ignores_startCall
  | takeArgument => exact ignores_countArgument
  | enterFunction => exact ignores_startFunction
  | param => exact ignores_addParameter
  | paramsDone => exact ignores_publish
  | returnVoid => exact ignores_returnNothing
  | exitFunction => exact ignores_endFunction
  | checkOverload => exact ignores_retireRivals
  | _ => cases ha

end Heedless

section Values

/-- **A step that uses values** and leaves nothing of them but the stack below. -/
def Uses (line : Nat) (values : List Operand) (g : Generator) (st : OperandStack)
    (g' : Generator) : Prop :=
  ∃ g₁, Took line values g st g₁ ∧ Heedless g₁ g' ∧ g'.stack = st

/-- **A step that uses values and leaves a result,** which is no temporary that is taken already. -/
def Leaves (line : Nat) (values : List Operand) (g : Generator) (st : OperandStack)
    (g' : Generator) : Prop :=
  ∃ g₁ o, Took line values g st g₁ ∧ Heedless g₁ g' ∧ g'.stack = o :: st ∧
    ∀ cell, Generator.directCell? o = some cell → g.memory.tempNext ≤ cell

/-- **What becomes of the marks** of values that are used: they are reported, and taken away. -/
theorem Took.heedless (h : Took line values g st g') (h' : Heedless g' g'')
    (hp : Piled values count before g.voidResults)
    (hlow : ∀ cell ∈ g.voidResults, cell < g.memory.tempNext) :
    g''.voidResults = before ∧
      g''.voidErrors = g.voidErrors ++ List.replicate count ⟨line, .voidOperand⟩ ∧
        g.memory.tempNext ≤ g''.memory.tempNext := by
  obtain ⟨hvoids, herrors⟩ := h.piled hp
  refine ⟨(h'.voids fun cell hc => ?_).trans hvoids, h'.errors.trans herrors, ?_⟩
  · rw [h.memory]
    exact hlow cell (hp.subset (hvoids ▸ hc))
  · exact h.memory ▸ h'.temps

/-- The cell of an operand that names one directly is the one that it names. -/
theorem directCell?_direct {cell : Nat} (h : cell < 2 ^ 63) :
    Generator.directCell? (.direct cell) = some cell := by
  have hword : Operand.word cell = cell := Operand.word_eq_self (by
    unfold Operand.maxWord
    omega)
  simp [Generator.directCell?, Operand.direct, Operand.index?, hword]

theorem value_of_directCell? {cell : Nat} (h : Generator.directCell? o = some cell) :
    o.value = cell := by
  unfold Generator.directCell? at h
  split at h
  · unfold Operand.index? at h
    split at h
    · rw [← Option.some.inj h]
      omega
    · cases h
  · cases h

theorem heedless_operated (g : Generator) (op : Opcode) (a b : Operand) :
    Heedless g (g.operated op a b) :=
  (heedless_withTemp g).trans ((heedless_append _ _).trans (heedless_push _ _))

/-- The two temporaries of an element. -/
theorem heedless_addressed (g : Generator) (i j : Instruction) (o : Operand) :
    Heedless g (((g.withTemp.append (some i)).withTemp.append (some j)).push o) := by
  have hfirst : Heedless g (g.withTemp.append (some i)) :=
    (heedless_withTemp g).trans (heedless_append _ _)
  exact hfirst.trans
    ((heedless_withTemp _).trans ((heedless_append _ _).trans (heedless_push _ _)))

theorem heedless_dropTemp {cell : Nat} (h : Heedless g g')
    (ht : g.memory.tempNext ≤ (g'.dropTemp cell).memory.tempNext) :
    Heedless g (g'.dropTemp cell) := ⟨h.voids, h.errors, ht⟩

theorem tempNext_le_dropTemp (g : Generator) (cell : Nat) :
    (g.dropTemp cell).memory.tempNext ≤ g.memory.tempNext := by
  change (Memory.dropTemp _ _).tempNext ≤ _
  unfold Memory.dropTemp
  split
  · rename_i hlatest
    have hcell : cell + g.memory.unit = g.memory.tempNext := by
      simpa using (Bool.and_eq_true_iff.1 hlatest).1
    dsimp only
    omega
  · exact Nat.le_refl _

/-- Two temporaries that are given back. -/
theorem heedless_scratch {counter running : Nat} (h : Heedless g g')
    (ht : g.memory.tempNext ≤ ((g'.dropTemp running).dropTemp counter).memory.tempNext) :
    Heedless g (((g'.dropTemp running).dropTemp counter).push o) := by
  have hrunning := heedless_dropTemp h (Nat.le_trans ht (tempNext_le_dropTemp _ counter))
  exact (heedless_dropTemp hrunning ht).trans (heedless_push _ _)

theorem heedless_withPower (h : g.memory.tempNext ≤ (g.withPower a b).memory.tempNext) :
    Heedless g (g.withPower a b) :=
  heedless_scratch ((heedless_withTemp g).trans ((heedless_withTemp _).trans
    ((heedless_withTemp _).trans (heedless_appendAll _ _)))) h

section Results

variable (hsmall : g.memory.capacity ≤ 2 ^ 63) (hunit : 0 < g.memory.unit)
include hsmall hunit

/-- A temporary that has been taken is a word. -/
theorem apart_of_le {next : Nat} (hnext : g.memory.tempNext ≤ next)
    (hle : next + g.memory.unit ≤ g.memory.capacity) :
    ∀ cell, Generator.directCell? (.direct next) = some cell → g.memory.tempNext ≤ cell := by
  intro cell hcell
  rw [directCell?_direct (by omega), Option.some.injEq] at hcell
  exact hcell ▸ hnext

theorem leaves_operated {g₁ : Generator} {op : Opcode} (h₁ : Took line values g st g₁)
    (hle : g.memory.tempNext + 1 * g.memory.unit ≤ g.memory.capacity) :
    Leaves line values g st (g₁.operated op a b) := by
  refine ⟨g₁, .direct g₁.memory.tempNext, h₁, heedless_operated g₁ op a b, ?_, ?_⟩
  · rw [Generator.stack_operated, h₁.stack]
  · rw [h₁.memory]
    exact apart_of_le hsmall hunit (Nat.le_refl _) (by omega)

theorem leaves_combine {op : Opcode} (h : g.stack = b :: a :: st) :
    Ends (combine op line) g fun _ g' => Leaves line [b, a] g st g' := by
  refine ((ends_combine_eq h).and (spends_combine (a := .add) rfl)).mono ?_
  rintro _ _ ⟨⟨g₁, h₁, rfl⟩, hle, -⟩
  exact leaves_operated hsmall hunit h₁ hle

theorem leaves_relate {marker : Operand} (h : g.stack = b :: marker :: a :: st) :
    Ends (relate line) g fun _ g' => Leaves line [b, a] g st g' := by
  refine ((ends_relate_eq h).and (spends_relate (a := .compare) rfl)).mono ?_
  rintro _ _ ⟨⟨g₁, h₁, rfl⟩, hle, -⟩
  exact leaves_operated hsmall hunit h₁ hle

/-- A power gives back two temporaries, which lie above its result. -/
theorem leaves_raise (hfrom : g.memory.tempsFrom ≤ g.memory.tempNext)
    (h : g.stack = b :: a :: st) :
    Ends (raise line) g fun _ g' => Leaves line [b, a] g st g' := by
  refine ((ends_raise_eq h).and (spends_raise hfrom)).mono ?_
  rintro _ _ ⟨⟨g₁, h₁, rfl⟩, hle, htemps⟩
  have hscratch : scratch .power = 2 := rfl
  rw [hscratch] at htemps
  refine ⟨g₁, .direct g₁.memory.tempNext, h₁, heedless_withPower ?_, ?_, ?_⟩
  · rw [h₁.memory]
    omega
  · rw [Generator.stack_withPower, h₁.stack]
  · rw [h₁.memory]
    exact apart_of_le hsmall hunit (Nat.le_refl _) (by omega)

theorem leaves_element {asValue : Bool} (h : g.stack = b :: a :: st) :
    Ends (element line asValue) g fun _ g' => Leaves line [b, a] g st g' := by
  simp only [element, ends_bind, ends_takeValue, ends_get, ends_freshTemp, ends_emit, ends_push]
  obtain ⟨-, h₁⟩ := took_takeValue h line
  obtain ⟨-, h₂⟩ := took_takeValue h₁.stack line
  have htook := h₁.trans h₂
  generalize ((g.takeValue line).2.takeValue line).2 = g₁ at htook
  intro _ _ hle _
  have hmemory := htook.memory
  simp only [Generator.tempNext_append, Generator.tempNext_withTemp, Generator.unit_append,
    Generator.unit_withTemp, Generator.capacity_append, Generator.capacity_withTemp, hmemory] at hle
  refine ⟨g₁, _, htook, heedless_addressed g₁ _ _ _, congrArg (_ :: ·) htook.stack, ?_⟩
  intro cell hcell
  cases asValue with
  | true => cases hcell
  | false =>
    refine apart_of_le hsmall hunit (Nat.le_add_right _ _) hle cell ?_
    rw [← hmemory]
    exact hcell

end Results

theorem uses_store (h : g.stack = b :: a :: st) :
    Ends (store line) g fun _ g' => Uses line [b] g st g' := by
  refine (ends_store_eq h).mono ?_
  rintro _ _ ⟨g₁, h₁, rfl⟩
  exact ⟨g₁, h₁, .of_eq rfl rfl rfl, h₁.stack⟩

theorem uses_printValue (h : g.stack = a :: st) :
    Ends (printValue line) g fun _ g' => Uses line [a] g st g' := by
  refine (ends_printValue_eq h).mono ?_
  rintro _ _ ⟨g₁, h₁, rfl⟩
  exact ⟨g₁, h₁, .of_eq rfl rfl rfl, h₁.stack⟩

/-- What leaves the marks and the stack alone behind a value that is taken. -/
theorem uses_takeValue {x : Operand → Emit Unit} (h : g.stack = a :: st) (hx : ∀ o, Ignores (x o))
    (hs : ∀ o, Spares (x o)) :
    Ends (takeValue line >>= x) g fun _ g' => Uses line [a] g st g' := by
  rw [ends_bind, ends_takeValue]
  obtain ⟨-, h₁⟩ := took_takeValue h line
  refine ((hx _ _).and (hs _ _ st _ ⟨h₁.stack, rfl⟩)).mono fun _ g' h' => ?_
  exact ⟨_, h₁, h'.1, h'.2.stack⟩

theorem uses_storeItem (h : g.stack = a :: st) :
    Ends (storeItem line) g fun _ g' => Uses line [a] g st g' :=
  uses_takeValue h (fun _ => ignores_bind ignores_takeNextCell fun _ => ignores_emit)
    fun _ => spares_bind spares_onMemory fun _ => spares_emit

theorem uses_returnWith (h : g.stack = a :: st) :
    Ends (returnWith line) g fun _ g' => Uses line [a] g st g' := by
  refine uses_takeValue h (fun o => ignores_bind ignores_returningFrom fun row? => ?_)
    fun o => spares_bind spares_returningFrom fun row? => ?_
  · split
    · exact ignores_pure ()
    · exact ignores_bind ignores_functionOn fun _ => ignores_bind ignores_emitReturn fun _ =>
        ignores_modify fun _ => .of_eq rfl rfl rfl
  · split
    · exact spares_pure ()
    · exact spares_bind spares_functionOn fun _ => spares_bind spares_emitReturn fun _ =>
        spares_modify fun _ _ _ h => ⟨h.stack, h.calls⟩

end Values

section Calls

/-- **A call of a function that gives no value** marks its result. -/
theorem voids_called (hlow : ∀ cell ∈ g.voidResults, cell < g.memory.tempNext) :
    (g.called row info values).voidResults =
      (if !info.returnsValue && !g.symbols.scopes.insideBody g.currentScope row
        then [g.memory.tempNext] else []) ++ g.voidResults := by
  have hfetched : ((g.appendAll (entryCode info values g.programNext)).withTemp.append
      (some (.assign (.direct info.result) (.direct g.memory.tempNext)))).voidResults =
        g.voidResults :=
    ((heedless_appendAll g _).trans ((heedless_withTemp _).trans (.of_eq rfl rfl rfl))).voids hlow
  have hnot : g.voidResults.contains g.memory.tempNext = false := by
    rw [List.contains_eq_mem, decide_eq_false_iff_not]
    exact fun hmem => absurd (hlow _ hmem) (Nat.lt_irrefl _)
  unfold Generator.called
  dsimp only
  split
  · change (if Generator.voidResults _ |>.contains _ then _ else _) = _
    rw [hfetched, hnot]
    rfl
  · exact hfetched

theorem tempNext_called :
    (g.called row info values).memory.tempNext = g.memory.tempNext + g.memory.unit := by
  have hnext := Generator.tempNext_appendAll g (entryCode info values g.programNext)
  have hunit := Generator.unit_appendAll g (entryCode info values g.programNext)
  have hfetched : ((g.appendAll (entryCode info values g.programNext)).withTemp.append
      (some (.assign (.direct info.result) (.direct g.memory.tempNext)))).memory.tempNext =
        g.memory.tempNext + g.memory.unit := by
    rw [Generator.tempNext_append, Generator.tempNext_withTemp, hnext, hunit]
  unfold Generator.called
  dsimp only
  split <;> exact hfetched

/-- **A result that is dropped** takes its mark away, and is not reported. -/
theorem ends_dropResult_piled (h : g.stack = o :: st) (hp : Piled [o] count before g.voidResults)
    (hzone : ∀ cell ∈ g.voidResults, g.memory.tempsFrom ≤ cell ∧ cell < g.memory.capacity) :
    Ends dropResult g fun _ g' => g'.voidResults = before ∧ g'.voidErrors = g.voidErrors := by
  simp only [dropResult, ends_bind, ends_pop, ends_get, Generator.pop_eq h]
  rcases hp.single with ⟨-, hsame, hnone⟩ | ⟨cell, -, hcell, hnot, hmarks⟩
  · -- a mark that is not there is taken away
    have hclear : ∀ cell, Generator.directCell? o = some cell →
        g.voidResults.filter (· ≠ cell) = before := by
      intro cell hcell
      rw [← hsame]
      exact filter_ne_of_not_mem (hnone cell hcell)
    split
    · cases hcell : Generator.directCell? o with
      | none => exact (ends_pure ()).2 ⟨hsame, rfl⟩
      | some cell =>
        simp only [ends_bind, ends_modify, ends_dropTemp]
        exact ⟨hclear cell hcell, rfl⟩
    · exact (ends_pure ()).2 ⟨hsame, rfl⟩
  · -- the result is a temporary, so that its mark is looked for
    have hin := hzone cell (hmarks ▸ List.mem_cons_self)
    have hvalue := value_of_directCell? hcell
    have htemp : g.memory.inTempZone o.value = true := by
      simp [Memory.inTempZone, hvalue, hin.1, hin.2]
    rw [if_pos htemp]
    simp only [hcell, ends_bind, ends_modify, ends_dropTemp]
    refine ⟨?_, rfl⟩
    change g.voidResults.filter _ = before
    rw [hmarks]
    exact filter_ne_cons hnot

end Calls

end OnePass.Emission
