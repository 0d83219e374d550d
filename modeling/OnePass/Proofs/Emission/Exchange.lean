import OnePass.Proofs.Emission.Actions
import OnePass.Proofs.Emission.Control

/-!
# What every action makes of the stack

The items that the actions leave for one another lie on the operand stack, and the names of
open calls lie beside it. Each action finds what it takes on top, and whatever lies below
stays there, so it makes no difference what that is.

* `Lies`: operands and pending calls that these items stand for. `lies_append`.
* `Spares`: a step that leaves operands and pending calls alone. `spares_bind` and the others.
* `Generator.Stands`: the operands and pending calls of a state.
* `exchanges_perform`: every action exchanges what it takes for what it leaves.
-/

namespace OnePass.Emission

open Grammar (Action Item)
open Names Target

/-- **What items stand for:** operands on the stack, the top first, and the names of open calls. A
slot that is held is one of `slots` slots, and a call has at most `most` arguments so far. -/
def Lies (most slots : Nat) : List Item → OperandStack → List String → Prop
  | [], st, calls => st = [] ∧ calls = []
  | .value :: items, st, calls => ∃ o rest, st = o :: rest ∧ Lies most slots items rest calls
  | .target :: items, st, calls | .condition :: items, st, calls =>
    ∃ cell rest, st = .direct cell :: rest ∧ Lies most slots items rest calls
  | .relation :: items, st, calls => ∃ o rest, st = o :: rest ∧
    (o = .immediate 0 ∨ o = .immediate 1) ∧ Lies most slots items rest calls
  | .branch :: items, st, calls => ∃ slot cell rest,
    st = .immediate (Operand.word slot) :: .direct cell :: rest ∧ slot < slots ∧
      Lies most slots items rest calls
  | .otherwise :: items, st, calls => ∃ slot rest, st = .immediate (Operand.word slot) :: rest ∧
    slot < slots ∧ Lies most slots items rest calls
  | .call :: items, st, calls => ∃ (values : List Operand) (rest : List Operand) (name : String)
    (others : List String), st = .immediate values.length :: (values ++ rest) ∧
      calls = name :: others ∧ values.length ≤ most ∧ Lies most slots items rest others
  | .loop :: items, st, calls | .header :: items, st, calls | .body :: items, st, calls =>
    Lies most slots items st calls

section Lies

variable {most most' slots slots' : Nat} {a b items : List Item} {s t st : OperandStack}
  {c d calls : List String}

/-- A call may come to have more arguments, and there may be more slots. -/
theorem Lies.mono (h : Lies most slots items st calls) (hmost : most ≤ most')
    (hslots : slots ≤ slots') : Lies most' slots' items st calls := by
  induction items generalizing st calls with
  | nil => exact h
  | cons i items ih =>
    cases i with
    | value | target | condition =>
      obtain ⟨o, rest, hst, h⟩ := h
      exact ⟨o, rest, hst, ih h⟩
    | relation =>
      obtain ⟨o, rest, hst, ho, h⟩ := h
      exact ⟨o, rest, hst, ho, ih h⟩
    | branch =>
      obtain ⟨slot, cell, rest, hst, hslot, h⟩ := h
      exact ⟨slot, cell, rest, hst, Nat.lt_of_lt_of_le hslot hslots, ih h⟩
    | otherwise =>
      obtain ⟨slot, rest, hst, hslot, h⟩ := h
      exact ⟨slot, rest, hst, Nat.lt_of_lt_of_le hslot hslots, ih h⟩
    | call =>
      obtain ⟨values, rest, name, others, hst, hcalls, hlength, h⟩ := h
      exact ⟨values, rest, name, others, hst, hcalls, Nat.le_trans hlength hmost, ih h⟩
    | loop | header | body =>
      have hbelow : Lies most slots items st calls := h
      exact ih hbelow

theorem Lies.append (ha : Lies most slots a s c) (hb : Lies most slots b t d) :
    Lies most slots (a ++ b) (s ++ t) (c ++ d) := by
  induction a generalizing s c with
  | nil =>
    obtain ⟨rfl, rfl⟩ := ha
    exact hb
  | cons i items ih =>
    cases i with
    | value | target | condition =>
      obtain ⟨o, rest, rfl, h⟩ := ha
      exact ⟨o, rest ++ t, rfl, ih h⟩
    | relation | otherwise =>
      obtain ⟨o, rest, rfl, ho, h⟩ := ha
      exact ⟨o, rest ++ t, rfl, ho, ih h⟩
    | branch =>
      obtain ⟨slot, cell, rest, rfl, hslot, h⟩ := ha
      exact ⟨slot, cell, rest ++ t, rfl, hslot, ih h⟩
    | call =>
      obtain ⟨values, rest, name, others, rfl, rfl, hmost, h⟩ := ha
      refine ⟨values, rest ++ t, name, others ++ d, ?_, rfl, hmost, ih h⟩
      rw [List.cons_append, List.append_assoc]
    | loop | header | body => exact ih (s := s) (c := c) ha

/-- Of more items the first lie on top of the others. -/
theorem Lies.of_append (h : Lies most slots (a ++ b) st calls) : ∃ s t c d, st = s ++ t ∧
    calls = c ++ d ∧ Lies most slots a s c ∧ Lies most slots b t d := by
  induction a generalizing st calls with
  | nil => exact ⟨[], st, [], calls, rfl, rfl, ⟨rfl, rfl⟩, h⟩
  | cons i items ih =>
    cases i with
    | value | target | condition =>
      obtain ⟨o, rest, rfl, h⟩ := h
      obtain ⟨s, t, c, d, rfl, rfl, ha, hb⟩ := ih h
      exact ⟨_ :: s, t, c, d, rfl, rfl, ⟨o, s, rfl, ha⟩, hb⟩
    | relation | otherwise =>
      obtain ⟨o, rest, rfl, ho, h⟩ := h
      obtain ⟨s, t, c, d, rfl, rfl, ha, hb⟩ := ih h
      exact ⟨_ :: s, t, c, d, rfl, rfl, ⟨o, s, rfl, ho, ha⟩, hb⟩
    | branch =>
      obtain ⟨slot, cell, rest, rfl, hslot, h⟩ := h
      obtain ⟨s, t, c, d, rfl, rfl, ha, hb⟩ := ih h
      exact ⟨_ :: _ :: s, t, c, d, rfl, rfl, ⟨slot, cell, s, rfl, hslot, ha⟩, hb⟩
    | call =>
      obtain ⟨values, rest, name, others, rfl, rfl, hmost, h⟩ := h
      obtain ⟨s, t, c, d, rfl, rfl, ha, hb⟩ := ih h
      refine ⟨.immediate values.length :: (values ++ s), t, name :: c, d, ?_, rfl,
        ⟨values, s, name, c, rfl, rfl, hmost, ha⟩, hb⟩
      rw [List.cons_append, List.append_assoc]
    | loop | header | body =>
      have hbelow : Lies most slots (items ++ b) st calls := h
      exact ih hbelow

theorem lies_value (o : Operand) : Lies most slots [.value] [o] [] := ⟨o, [], rfl, rfl, rfl⟩

theorem lies_nil : Lies most slots [] [] [] := ⟨rfl, rfl⟩

end Lies

/-- **The operands and the pending calls** of a state. -/
structure Generator.Stands (g : Generator) (st : OperandStack) (calls : List String) : Prop where
  stack : g.stack = st
  calls : g.pendingCalls = calls

/-- **A step that leaves operands and pending calls alone.** -/
def Spares {α : Type} (x : Emit α) : Prop :=
  ∀ g st calls, g.Stands st calls → Ends x g fun _ g' => g'.Stands st calls

section Spares

variable {α β : Type} {line row : Nat} {name : String}

theorem spares_pure (a : α) : Spares (pure a) := fun _ _ _ h => (ends_pure a).2 h

theorem spares_bind {x : Emit α} {f : α → Emit β} (hx : Spares x) (hf : ∀ a, Spares (f a)) :
    Spares (x >>= f) := fun g st calls h =>
  ends_bind.2 ((hx g st calls h).mono fun a g₁ h₁ => hf a g₁ st calls h₁)

theorem spares_get : Spares get := fun _ _ _ h => ends_get.2 h

theorem spares_modify {f : Generator → Generator}
    (h : ∀ g st calls, g.Stands st calls → (f g).Stands st calls) : Spares (modify f) :=
  fun g st calls hg => ends_modify.2 (h g st calls hg)

theorem spares_modifyGet {f : Generator → α × Generator}
    (h : ∀ g st calls, g.Stands st calls → (f g).2.Stands st calls) : Spares (modifyGet f) :=
  fun g st calls hg => ends_modifyGet.2 (h g st calls hg)

theorem spares_report {fault : SemanticFault} : Spares (report line fault) :=
  spares_modify fun _ _ _ h => ⟨h.stack, h.calls⟩

theorem spares_onMemory {op : Memory → Except MemoryError (α × Memory)} : Spares (onMemory op) :=
  fun _ _ _ h => ends_onMemory.2 fun _ _ _ => ⟨h.stack, h.calls⟩

theorem spares_emit {i : Instruction} : Spares (emit i) :=
  fun _ _ _ h => ends_emit.2 fun _ => ⟨h.stack, h.calls⟩

theorem spares_settle {slot : Option Nat} {i : Instruction} : Spares (settle slot i) := by
  cases slot with
  | none => exact spares_pure ()
  | some slot =>
    refine spares_bind spares_get fun _ => ?_
    split
    · exact spares_onMemory
    · exact spares_pure ()

theorem spares_freshTemp : Spares freshTemp :=
  fun _ _ _ h => ends_freshTemp.2 fun _ => ⟨h.stack, h.calls⟩

theorem spares_forM {γ : Type} {f : γ → Emit Unit} {items : List γ} (h : ∀ x, Spares (f x)) :
    Spares (items.forM f) := fun _ st calls hg => ends_forM hg fun x _ g hg => h x g st calls hg

theorem spares_setMeaning {m : Meaning} : Spares (modify (·.setMeaning row m)) :=
  spares_modify fun _ _ _ h => ⟨h.stack, h.calls⟩

theorem spares_mapDefinition {f : Definition → Definition} :
    Spares (modify (·.mapDefinition f)) :=
  spares_modify fun _ _ _ h => ⟨h.stack, h.calls⟩

theorem spares_rowFor {reuse : Meaning → Bool} : Spares (modifyGet (·.rowFor name reuse)) :=
  spares_modifyGet fun _ _ _ h => ⟨h.stack, h.calls⟩

theorem spares_bindFresh : Spares (bindFresh name) :=
  spares_bind spares_rowFor fun _ => spares_bind spares_onMemory fun _ =>
    spares_bind spares_setMeaning fun _ => spares_pure _

theorem spares_requireCell : Spares (requireCell name line) := by
  refine spares_bind spares_get fun _ => ?_
  split
  · exact spares_report
  · exact spares_pure ()

theorem spares_bindGlobal : Spares (bindGlobal name line) := by
  refine spares_bind spares_get fun _ => ?_
  split
  · exact spares_pure ()
  · split
    · exact spares_report
    · exact spares_bind spares_rowFor fun _ => spares_setMeaning

theorem spares_loopRecord : Spares loopRecord := by
  refine spares_bind spares_get fun _ => ?_
  dsimp only
  split
  · exact fun _ _ _ _ => ends_defect
  · split
    · exact spares_pure _
    · exact spares_bind spares_setMeaning fun _ => spares_pure _
    · exact fun _ _ _ _ => ends_defect

theorem spares_startLoop : Spares startLoop :=
  spares_bind spares_get fun _ => spares_bind spares_loopRecord fun _ =>
    spares_bind spares_setMeaning fun _ => spares_modify fun _ _ _ h => ⟨h.stack, h.calls⟩

theorem spares_leaveLoop {outside : SemanticFault} {add : LoopRecord → Nat → LoopRecord} :
    Spares (leaveLoop line outside add) := by
  refine spares_bind spares_get fun _ => ?_
  split
  · exact spares_bind spares_onMemory fun _ => spares_bind spares_loopRecord fun _ =>
      spares_setMeaning
  · exact spares_report

theorem spares_jumpInto {info : FunctionInfo} : Spares (jumpInto info) :=
  spares_bind spares_get fun _ => spares_bind spares_emit fun _ => spares_emit

theorem spares_settleLoop {slot : Option Nat} {condition : Operand} {closed : ClosedLoop} :
    Spares (settleLoop slot condition closed) :=
  spares_bind spares_emit fun _ => spares_bind spares_get fun _ =>
    spares_bind spares_settle fun _ => spares_bind (spares_forM fun _ => spares_settle) fun _ =>
      spares_forM fun _ => spares_settle

theorem spares_startFunction : Spares (startFunction name) :=
  spares_bind spares_onMemory fun _ => spares_bind spares_onMemory fun _ =>
    spares_bind spares_onMemory fun _ => spares_bind spares_rowFor fun _ =>
      spares_bind spares_get fun _ =>
        spares_bind (spares_modify fun _ _ _ h => ⟨h.stack, h.calls⟩) fun _ =>
          spares_modify fun _ _ _ h => ⟨h.stack, h.calls⟩

theorem spares_addParameter : Spares (addParameter name) :=
  spares_bind spares_bindFresh fun _ => spares_mapDefinition

theorem spares_giveMeaning {change : Meaning → Except MeaningError Meaning} :
    Spares (giveMeaning row change) := by
  refine spares_bind spares_get fun _ => ?_
  split
  · exact spares_pure ()
  · split
    · exact spares_setMeaning
    · exact fun _ _ _ _ => ends_defect

theorem spares_publish : Spares publish := by
  refine spares_bind spares_get fun _ => ?_
  split
  · exact spares_pure ()
  · split
    · exact spares_pure ()
    · exact spares_bind spares_mapDefinition fun _ => spares_giveMeaning

theorem spares_functionOn : Spares (functionOn row) := by
  refine spares_bind spares_get fun _ => ?_
  dsimp only
  split
  · exact spares_pure _
  · exact fun _ _ _ _ => ends_defect

theorem spares_returningFrom : Spares returningFrom := by
  refine spares_bind spares_get fun _ => ?_
  split
  · exact spares_pure _
  · split
    · exact spares_bind spares_mapDefinition fun _ => spares_pure _
    · exact spares_pure _

theorem spares_emitReturn {info : FunctionInfo} {value : Operand} :
    Spares (emitReturn info value) := spares_bind spares_emit fun _ => spares_emit

theorem spares_returnNothing : Spares returnNothing := by
  refine spares_bind spares_returningFrom fun row? => ?_
  split
  · exact spares_pure ()
  · exact spares_bind spares_functionOn fun _ => spares_emit

theorem spares_endFunction : Spares endFunction := by
  refine spares_bind spares_publish fun _ => spares_bind spares_get fun _ => ?_
  split
  · exact spares_pure ()
  · rename_i d rest _
    have hclose : Spares (do
        settle (some d.aroundSlot) (.jump (← get).programNext)
        modify (·.leaveScope)
        modify ({ · with lastDefined := some d.row })) :=
      spares_bind spares_get fun _ => spares_bind spares_settle fun _ =>
        spares_bind (spares_modify fun _ _ _ h => ⟨h.stack, h.calls⟩) fun _ =>
          spares_modify fun _ _ _ h => ⟨h.stack, h.calls⟩
    refine spares_bind (spares_modify fun _ _ _ h => ⟨h.stack, h.calls⟩) fun _ => ?_
    dsimp only
    split
    · exact spares_bind spares_functionOn fun _ => spares_bind spares_emitReturn fun _ => hclose
    · exact hclose

theorem spares_retireRivals : Spares (retireRivals line) := by
  refine spares_bind spares_get fun _ => ?_
  split
  · exact spares_pure ()
  · refine spares_bind (spares_modify fun _ _ _ h => ⟨h.stack, h.calls⟩) fun _ =>
      spares_forM fun _ => spares_bind spares_report fun _ => ?_
    exact spares_modify fun _ _ _ h => ⟨h.stack, h.calls⟩

end Spares

section Values

variable {g g' : Generator} {line : Nat} {st : OperandStack} {calls : List String} {a b o : Operand}

theorem Generator.Stands.push (h : g.Stands st calls) (o : Operand) :
    (g.push o).Stands (o :: st) calls := ⟨congrArg (o :: ·) h.stack, h.calls⟩

/-- Taking from the stack leaves the calls alone. -/
theorem Took.stands {values : List Operand} (h : Took line values g st g')
    (hg : g.pendingCalls = calls) : g'.Stands st calls := by
  obtain ⟨voids, errors, rfl⟩ := h.frame
  exact ⟨rfl, hg⟩

theorem stands_readName {name : String} (h : g.Stands st calls) :
    Ends (readName name) g fun _ g' => ∃ o, g'.Stands (o :: st) calls := by
  simp only [readName, ends_bind, ends_get]
  split
  · simp only [ends_bind, ends_pure, ends_push]
    exact ⟨_, h.push _⟩
  · simp only [ends_bind, ends_push]
    exact (spares_bindFresh g st calls h).mono fun _ _ h' => ⟨_, h'.push _⟩

theorem stands_assignTo {name : String} (h : g.Stands st calls) :
    Ends (assignTo name) g fun _ g' => ∃ cell, g'.Stands (.direct cell :: st) calls := by
  simp only [assignTo, ends_bind, ends_get]
  split
  · simp only [ends_bind, ends_pure, ends_push]
    exact ⟨_, h.push _⟩
  · simp only [ends_bind, ends_push]
    exact (spares_bindFresh g st calls h).mono fun cell _ h' => ⟨cell, h'.push _⟩

/-- **An element** takes its index and its list. -/
theorem stands_element {asValue : Bool} (h : g.Stands (a :: b :: st) calls) :
    Ends (element line asValue) g fun _ g' => ∃ cell,
      g'.Stands ((if asValue then .indirect cell else .direct cell) :: st) calls := by
  simp only [element, ends_bind, ends_takeValue, ends_get]
  obtain ⟨-, h₁⟩ := took_takeValue h.stack line
  obtain ⟨-, h₂⟩ := took_takeValue h₁.stack line
  have hg := (h₁.trans h₂).stands h.calls
  refine (spares_freshTemp _ st calls hg).mono fun offset g₁ hg₁ => ?_
  refine (spares_emit _ st calls hg₁).mono fun _ g₂ hg₂ => ?_
  refine (spares_freshTemp _ st calls hg₂).mono fun address g₃ hg₃ => ?_
  refine (spares_emit _ st calls hg₃).mono fun _ g₄ hg₄ => ?_
  exact ends_push.2 ⟨address, hg₄.push _⟩

theorem stands_storeItem (h : g.Stands (a :: st) calls) :
    Ends (storeItem line) g fun _ g' => g'.Stands st calls := by
  simp only [storeItem, ends_bind, ends_takeValue]
  obtain ⟨-, h₁⟩ := took_takeValue h.stack line
  refine (spares_onMemory _ st calls (h₁.stands h.calls)).mono fun cell g₁ hg₁ => ?_
  exact spares_emit _ st calls hg₁

theorem stands_operated (h : g.Stands st calls) (op : Opcode) (left right : Operand) :
    (g.operated op left right).Stands (.direct g.memory.tempNext :: st) calls :=
  ⟨by rw [Generator.stack_operated, h.stack], h.calls⟩

theorem pendingCalls_appendAll (g : Generator) (code : List Instruction) :
    (g.appendAll code).pendingCalls = g.pendingCalls := by
  induction code generalizing g with
  | nil => rfl
  | cons i code ih => exact ih (g.append (some i))

theorem stands_withPower (h : g.Stands st calls) (base exponent : Operand) :
    (g.withPower base exponent).Stands (.direct g.memory.tempNext :: st) calls := by
  refine ⟨by rw [Generator.stack_withPower, h.stack], ?_⟩
  simp only [Generator.withPower, Generator.push, Generator.dropTemp, pendingCalls_appendAll]
  exact h.calls

/-- A count that is a word is counted up. -/
theorem increment_length {n : Nat} (h : n + 1 < 2 ^ 63) :
    (Operand.immediate n).increment = ((n + 1 : Nat) : Int) := by
  unfold Operand.increment Operand.immediate Operand.maxWord
  rw [if_pos (by push_cast; omega)]
  push_cast
  rfl

/-- **An argument is counted.** -/
theorem stands_countArgument {n : Nat} (h : g.Stands (a :: .immediate n :: st) calls)
    (hn : n + 1 < 2 ^ 63) :
    Ends countArgument g fun _ g' => g'.Stands (.immediate (n + 1 : Nat) :: a :: st) calls := by
  simp only [countArgument, ends_bind, ends_modifyGet, ends_push]
  have hcount := increment_length hn
  have htake : g.stack.take? 1 = some (.immediate n, a :: st) := by
    simp [h.stack, OperandStack.take?, OperandStack.at?]
  simp only [htake, hcount]
  exact ⟨rfl, h.calls⟩

/-- **A call** takes its arguments and the number of them, and is pending no longer. -/
theorem stands_resolveCall {values : List Operand} {name : String}
    (h : g.Stands (.immediate values.length :: (values ++ st)) (name :: calls)) :
    Ends (resolveCall line) g fun _ g' => ∃ o, g'.Stands (o :: st) calls := by
  have hcount := argumentCount_eq h.stack
  rw [Generator.argumentCount, Generator.pop_eq h.stack] at hcount
  simp only [resolveCall, ends_bind, ends_pop, ends_get, ends_modify, Generator.pop_eq h.stack]
  rw [hcount]
  refine (ends_takeValues rfl).mono ?_
  rintro arguments g' ⟨-, voids, errors, rfl⟩
  have hpending : ∀ g₁ : Generator, g₁.stack = st → g₁.pendingCalls = g.pendingCalls.tail →
      g₁.Stands st calls := by
    intro g₁ hstack hcalls
    rw [h.calls] at hcalls
    exact ⟨hstack, hcalls⟩
  split
  · simp only [callFunction, ends_bind, ends_get]
    refine (spares_forM (fun _ => spares_emit) _ st calls (hpending _ rfl rfl)).mono
      fun _ g₁ hg₁ => ?_
    refine (spares_jumpInto _ st calls hg₁).mono fun _ g₂ hg₂ => ?_
    refine (spares_freshTemp _ st calls hg₂).mono fun result g₃ hg₃ => ?_
    refine (spares_emit _ st calls hg₃).mono fun _ g₄ hg₄ => ?_
    split
    · simp only [ends_bind, ends_modify, ends_push]
      have hg₅ : (g₄.markVoid result).Stands st calls := ⟨hg₄.stack, hg₄.calls⟩
      exact ⟨_, hg₅.push _⟩
    · exact ends_push.2 ⟨_, hg₄.push _⟩
  · simp only [ends_bind, ends_report, ends_push]
    exact ⟨_, (hpending _ rfl rfl).push _⟩

theorem stands_dropResult (h : g.Stands (a :: st) calls) :
    Ends dropResult g fun _ g' => g'.Stands st calls := by
  simp only [dropResult, ends_bind, ends_pop, ends_get, Generator.pop_eq h.stack]
  split
  · split
    · simp only [ends_bind, ends_modify, ends_dropTemp]
      exact ⟨rfl, h.calls⟩
    · exact (ends_pure ()).2 ⟨rfl, h.calls⟩
  · exact (ends_pure ()).2 ⟨rfl, h.calls⟩

theorem stands_returnWith (h : g.Stands (a :: st) calls) :
    Ends (returnWith line) g fun _ g' => g'.Stands st calls := by
  simp only [returnWith, ends_bind, ends_takeValue]
  obtain ⟨-, h₁⟩ := took_takeValue h.stack line
  refine (spares_returningFrom _ st calls (h₁.stands h.calls)).mono fun row? g₁ hg₁ => ?_
  split
  · exact (ends_pure ()).2 hg₁
  · simp only [ends_bind]
    refine (spares_functionOn _ st calls hg₁).mono fun info g₂ hg₂ => ?_
    refine (spares_emitReturn _ st calls hg₂).mono fun _ g₃ hg₃ => ?_
    exact ends_modify.2 ⟨hg₃.stack, hg₃.calls⟩

/-- **The end of a loop** takes the slot of its condition, whether or not a loop is open. -/
theorem stands_endLoop {s : Nat} (h : g.Stands (.immediate (Operand.word s) :: o :: st) calls)
    (hs : s < 2 ^ 63) : Ends endLoop g fun _ g' => g'.Stands st calls := by
  simp only [endLoop, ends_bind, ends_pop]
  refine (ends_heldSlot_eq h.stack hs).mono ?_
  rintro _ g₁ ⟨-, rfl⟩
  have hpop : (g.freed (o :: st)).pop = (o, g.freed st) := Generator.pop_eq rfl
  rw [hpop]
  have hfreed : (g.freed st).Stands st calls := ⟨rfl, h.calls⟩
  refine (spares_loopRecord _ st calls hfreed).mono fun x g₂ hg₂ => ?_
  split
  · simp only [ends_bind, ends_modify]
    rename_i closed outer _
    have hg₃ : (g₂.setMeaning x.1 (.loops outer)).Stands st calls := ⟨hg₂.stack, hg₂.calls⟩
    refine (spares_settleLoop _ st calls hg₃).mono fun _ g₄ hg₄ => ?_
    exact ⟨hg₄.stack, hg₄.calls⟩
  · exact ends_modify.2 ⟨hg₂.stack, hg₂.calls⟩

end Values

/-- **Every action exchanges what it takes for what it leaves.** It finds that on top, and operands
and pending calls below stay as they are, whatever they are. -/
theorem exchanges_perform {a : Action} {lexeme : String} {line most slots : Nat} {g : Generator}
    {top below : OperandStack} {calls pending : List String}
    (hl : Lies most slots a.takes top calls) (hg : g.Stands (top ++ below) (calls ++ pending))
    (hmost : most + counts a < 2 ^ 63) (hslots : slots ≤ 2 ^ 63) :
    Ends (perform a lexeme line) g fun _ g' => ∃ top' calls',
      Lies (most + counts a) g'.programNext a.leaves top' calls' ∧
        g'.Stands (top' ++ below) (calls' ++ pending) := by
  -- a step that leaves one value
  have hvalue : ∀ g' : Generator, (∃ o, g'.Stands (o :: below) pending) → ∃ top' calls',
      Lies (most + counts a) g'.programNext [.value] top' calls' ∧
        g'.Stands (top' ++ below) (calls' ++ pending) :=
    fun g' ⟨o, h⟩ => ⟨[o], [], lies_value o, h⟩
  -- a step that leaves nothing on the stack
  have hnone : ∀ g' : Generator, g'.Stands below pending → ∃ top' calls',
      Lies (most + counts a) g'.programNext [] top' calls' ∧
        g'.Stands (top' ++ below) (calls' ++ pending) :=
    fun g' h => ⟨[], [], lies_nil, h⟩
  -- a step that has nothing to do with the stack
  have hspares : ∀ {x : Emit Unit}, Spares x → top = [] ∧ calls = [] →
      Ends x g fun _ g' => ∃ top' calls', (top' = [] ∧ calls' = []) ∧
        g'.Stands (top' ++ below) (calls' ++ pending) := by
    rintro x hx ⟨rfl, rfl⟩
    exact (hx g _ _ hg).mono fun _ g' h => ⟨[], [], ⟨rfl, rfl⟩, h⟩
  have hcombine : ∀ {op : Opcode} {x y : Operand}, g.Stands (x :: y :: below) pending →
      Ends (combine op line) g fun _ g' => ∃ o, g'.Stands (o :: below) pending := by
    intro op x y h
    refine (ends_combine_eq h.stack).mono ?_
    rintro _ g' ⟨g₁, h₁, rfl⟩
    exact ⟨_, stands_operated (h₁.stands h.calls) _ _ _⟩
  cases a with
  | pushId =>
    obtain ⟨rfl, rfl⟩ := hl
    exact (stands_readName hg).mono fun _ g' h => hvalue g' h
  | pushNumber =>
    obtain ⟨rfl, rfl⟩ := hl
    exact ends_push.2 (hvalue _ ⟨_, hg.push _⟩)
  | pushTarget =>
    obtain ⟨rfl, rfl⟩ := hl
    refine (stands_assignTo hg).mono fun _ g' ⟨cell, h⟩ => ?_
    exact ⟨[.direct cell], [], ⟨cell, [], rfl, lies_nil⟩, h⟩
  | checkDefined => exact hspares spares_requireCell hl
  | elementAddress =>
    obtain ⟨x, _, rfl, y, _, rfl, rfl, rfl⟩ := hl
    refine (stands_element hg).mono fun _ g' ⟨cell, h⟩ => ?_
    exact ⟨[.direct cell], [], ⟨cell, [], rfl, lies_nil⟩, h⟩
  | elementValue =>
    obtain ⟨x, _, rfl, y, _, rfl, rfl, rfl⟩ := hl
    exact (stands_element hg).mono fun _ g' ⟨cell, h⟩ => hvalue g' ⟨_, h⟩
  | listBegin =>
    obtain ⟨rfl, rfl⟩ := hl
    simp only [perform, startList, ends_bind, ends_get, ends_push]
    exact hvalue _ ⟨_, hg.push _⟩
  | listItem =>
    obtain ⟨x, _, rfl, rfl, rfl⟩ := hl
    exact (stands_storeItem hg).mono fun _ g' h => hnone g' h
  | add | sub | mult =>
    obtain ⟨x, _, rfl, y, _, rfl, rfl, rfl⟩ := hl
    exact (hcombine hg).mono fun _ g' h => hvalue g' h
  | power =>
    obtain ⟨x, _, rfl, y, _, rfl, rfl, rfl⟩ := hl
    refine (ends_raise_eq hg.stack).mono ?_
    rintro _ g' ⟨g₁, h₁, rfl⟩
    exact hvalue _ ⟨_, stands_withPower (h₁.stands hg.calls) _ _⟩
  | markEq =>
    obtain ⟨rfl, rfl⟩ := hl
    exact ends_push.2 ⟨[_], [], ⟨_, [], rfl, .inl rfl, lies_nil⟩, hg.push _⟩
  | markLt =>
    obtain ⟨rfl, rfl⟩ := hl
    exact ends_push.2 ⟨[_], [], ⟨_, [], rfl, .inr rfl, lies_nil⟩, hg.push _⟩
  | compare =>
    obtain ⟨x, _, rfl, marker, _, rfl, -, y, _, rfl, rfl, rfl⟩ := hl
    refine (ends_relate_eq hg.stack).mono ?_
    rintro _ g' ⟨g₁, h₁, rfl⟩
    refine ⟨[.direct g₁.memory.tempNext], [], ⟨_, [], rfl, lies_nil⟩, ?_⟩
    exact stands_operated (h₁.stands hg.calls) _ _ _
  | assign =>
    obtain ⟨x, _, rfl, cell, _, rfl, rfl, rfl⟩ := hl
    refine (ends_store_eq hg.stack).mono ?_
    rintro _ g' ⟨g₁, h₁, rfl⟩
    obtain ⟨hstack, hcalls⟩ := h₁.stands hg.calls
    exact hnone _ ⟨hstack, hcalls⟩
  | print =>
    obtain ⟨x, _, rfl, rfl, rfl⟩ := hl
    refine (ends_printValue_eq hg.stack).mono ?_
    rintro _ g' ⟨g₁, h₁, rfl⟩
    obtain ⟨hstack, hcalls⟩ := h₁.stands hg.calls
    exact hnone _ ⟨hstack, hcalls⟩
  | global => exact hspares spares_bindGlobal hl
  | breakLoop => exact hspares spares_leaveLoop hl
  | continueLoop => exact hspares spares_leaveLoop hl
  | save =>
    obtain ⟨cell, _, rfl, rfl, rfl⟩ := hl
    refine ends_holdSlot_eq.mono ?_
    rintro _ g' rfl
    have hnext : g.held.programNext = g.programNext + 1 := g.programNext_append none
    have hslot : g.programNext < g.held.programNext := by omega
    refine ⟨[.immediate (Operand.word g.programNext), .direct cell], [],
      ⟨g.programNext, cell, [], rfl, hslot, lies_nil⟩, ?_, hg.calls⟩
    exact congrArg (.immediate (Operand.word g.programNext) :: ·) hg.stack
  | falseJump =>
    obtain ⟨slot, cell, _, rfl, hslot, rfl, rfl⟩ := hl
    refine (ends_settleCondition_eq hg.stack (by omega)).mono ?_
    rintro _ g' rfl
    exact hnone _ ⟨rfl, hg.calls⟩
  | falseJumpSave =>
    obtain ⟨slot, cell, _, rfl, hslot, rfl, rfl⟩ := hl
    refine (ends_startElse_eq hg.stack (by omega)).mono ?_
    rintro _ g' rfl
    have hnext := Generator.programNext_append ((g.freed below).withProgram
      (settled g.memory.program slot (.jumpIfFalse (.direct cell) (g.programNext + 1)))) none
    refine ⟨[_], [], ⟨_, [], rfl, ?_, lies_nil⟩, rfl, hg.calls⟩
    exact Nat.lt_of_lt_of_eq (Nat.lt_succ_self _) hnext.symm
  | jump =>
    obtain ⟨slot, _, rfl, hslot, rfl, rfl⟩ := hl
    refine (ends_endElse_eq hg.stack (by omega)).mono ?_
    rintro _ g' rfl
    exact hnone _ ⟨rfl, hg.calls⟩
  | loopBegin => exact hspares spares_startLoop hl
  | loopEnd =>
    obtain ⟨slot, cell, _, rfl, hslot, rfl, rfl⟩ := hl
    exact (stands_endLoop hg (by omega)).mono fun _ g' h => hnone g' h
  | beginCall =>
    obtain ⟨rfl, rfl⟩ := hl
    simp only [perform, startCall, ends_bind, ends_push, ends_modify]
    refine ⟨[.immediate 0], [lexeme],
      ⟨[], [], lexeme, [], rfl, rfl, Nat.zero_le _, lies_nil⟩, ?_, ?_⟩
    · exact congrArg (_ :: ·) hg.stack
    · exact congrArg (_ :: ·) hg.calls
  | takeArgument =>
    obtain ⟨x, _, rfl, values, _, name, _, rfl, rfl, hlength, rfl, rfl⟩ := hl
    have hmost' : values.length + 1 < 2 ^ 63 :=
      Nat.lt_of_le_of_lt (Nat.succ_le_succ hlength) hmost
    rw [List.append_nil] at hg
    refine (stands_countArgument hg hmost').mono fun _ g' h => ?_
    refine ⟨_ :: x :: values, [name], ⟨x :: values, [], name, [], ?_, rfl, ?_, lies_nil⟩, h⟩
    · rw [List.append_nil, List.length_cons]
    · exact Nat.succ_le_succ hlength
  | dispatch =>
    obtain ⟨values, _, name, _, rfl, rfl, -, rfl, rfl⟩ := hl
    rw [List.append_nil] at hg
    exact (stands_resolveCall hg).mono fun _ g' h => hvalue g' h
  | discardResult =>
    obtain ⟨x, _, rfl, rfl, rfl⟩ := hl
    exact (stands_dropResult hg).mono fun _ g' h => hnone g' h
  | enterFunction => exact hspares spares_startFunction hl
  | param => exact hspares spares_addParameter hl
  | paramsDone => exact hspares spares_publish hl
  | returnValue =>
    obtain ⟨x, _, rfl, rfl, rfl⟩ := hl
    exact (stands_returnWith hg).mono fun _ g' h => hnone g' h
  | returnVoid => exact hspares spares_returnNothing hl
  | exitFunction => exact hspares spares_endFunction hl
  | checkOverload => exact hspares spares_retireRivals hl

end OnePass.Emission
