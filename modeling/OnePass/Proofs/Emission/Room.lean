import OnePass.Proofs.Emission.Ranks

/-!
# More room for temporaries

The capacity only says when the zone of the temporaries is full, and which addresses lie in it. So a
step that ends does so with more room, too, and leaves the same state but for the room. Two actions
ask whether an operand names a temporary: more room answers that in the same way, where no operand
names a cell beyond the capacity.

* `Generator.withRoom`: a state with more room.
* `Roomy`: a step that ends with more room as it does without. `roomy_bind` and the others.
* `InBounds`: no operand names a cell beyond the capacity. `roomyAt_store`, `roomyAt_dropResult`.
* `roomyAt_perform`: **every action** is roomy in such a state.
-/

namespace OnePass

/-- The memory image with more room for temporaries. -/
def Target.Memory.withRoom (room : Nat) (m : Target.Memory) : Target.Memory :=
  { m with capacity := m.capacity + room }

namespace Emission

open Grammar (Action)
open Names Target

/-- The state with more room for temporaries. -/
def Generator.withRoom (room : Nat) (g : Generator) : Generator :=
  { g with memory := g.memory.withRoom room }

/-- **A step that, where it ends, does so with more room as well,** and in the same state. -/
def RoomyAt (room : Nat) {α : Type} (x : Emit α) (g : Generator) : Prop :=
  Ends x g fun a g' => x (g.withRoom room) = .ok a (g'.withRoom room)

def Roomy (room : Nat) {α : Type} (x : Emit α) : Prop := ∀ g, RoomyAt room x g

variable {α β : Type} {room line row : Nat} {g : Generator} {name lexeme : String}

section Steps

theorem roomy_pure (a : α) : Roomy room (pure a) := fun _ => (ends_pure a).2 rfl

theorem roomyAt_bind {x : Emit α} {f : α → Emit β} (hx : RoomyAt room x g)
    (hf : Ends x g fun a g' => RoomyAt room (f a) g') : RoomyAt room (x >>= f) g := by
  refine ends_bind.2 fun a g₁ hend b g' hend' => ?_
  have hfirst : x (g.withRoom room) = .ok a (g₁.withRoom room) := hx a g₁ hend
  have hsecond : f a (g₁.withRoom room) = .ok b (g'.withRoom room) := hf a g₁ hend b g' hend'
  change EStateM.bind x f (g.withRoom room) = _
  rw [EStateM.bind, hfirst]
  exact hsecond

theorem roomy_bind {x : Emit α} {f : α → Emit β} (hx : Roomy room x) (hf : ∀ a, Roomy room (f a)) :
    Roomy room (x >>= f) := fun g => roomyAt_bind (hx g) fun a g' _ => hf a g'

/-- What is read of a state has to be the same with more room. -/
theorem roomyAt_get_bind {f : Generator → Emit α} (hf : RoomyAt room (f g) g)
    (hsame : f (g.withRoom room) = f g) : RoomyAt room (get >>= f) g := by
  refine ends_bind.2 (ends_get.2 fun a g' hend => ?_)
  change f (g.withRoom room) (g.withRoom room) = _
  rw [hsame]
  exact hf a g' hend

theorem roomy_get_bind {f : Generator → Emit α} (hf : ∀ g, Roomy room (f g))
    (hsame : ∀ g, f (g.withRoom room) = f g) : Roomy room (get >>= f) := fun g =>
  roomyAt_get_bind (hf g g) (hsame g)

theorem roomy_modifyGet {f : Generator → α × Generator}
    (hf : ∀ g, f (g.withRoom room) = ((f g).1, (f g).2.withRoom room)) :
    Roomy room (modifyGet f) := fun g => ends_modifyGet.2 (by
  change EStateM.Result.ok (f (g.withRoom room)).1 (f (g.withRoom room)).2 = _
  rw [hf])

theorem roomy_modify {f : Generator → Generator}
    (hf : ∀ g, f (g.withRoom room) = (f g).withRoom room) : Roomy room (modify f) :=
  roomy_modifyGet fun g => by rw [hf]

theorem roomy_defect {e : Defect} : Roomy room (defect e : Emit α) := fun _ => ends_defect

theorem roomy_onMemory {op : Memory → Except MemoryError (α × Memory)}
    (hop : ∀ m a m', op m = .ok (a, m') → op (m.withRoom room) = .ok (a, m'.withRoom room)) :
    Roomy room (onMemory op) := fun g => ends_onMemory.2 fun a m h => by
  unfold onMemory
  rw [show op (g.withRoom room).memory = _ from hop _ _ _ h]
  rfl

theorem roomy_forM {γ : Type} {f : γ → Emit Unit} (hf : ∀ x, Roomy room (f x)) (items : List γ) :
    Roomy room (items.forM f) := by
  induction items with
  | nil => exact roomy_pure ()
  | cons x items ih => exact roomy_bind (hf x) fun _ => ih

end Steps

section Stack

variable {o : Operand} {fault : SemanticFault}

theorem roomy_report : Roomy room (report line fault) := roomy_modify fun _ => rfl

theorem roomy_push : Roomy room (push o) := roomy_modify fun _ => rfl

theorem Generator.pop_withRoom (g : Generator) :
    (g.withRoom room).pop = (g.pop.1, g.pop.2.withRoom room) := by
  unfold Generator.pop Generator.withRoom
  dsimp only
  split <;> rfl

theorem Generator.useValue_withRoom (g : Generator) :
    (g.withRoom room).useValue line o = (g.useValue line o).withRoom room := by
  unfold Generator.useValue Generator.withRoom
  dsimp only
  split
  · split <;> rfl
  · rfl

theorem roomy_pop : Roomy room pop := roomy_modifyGet fun g => g.pop_withRoom

theorem roomy_takeValue : Roomy room (takeValue line) := roomy_modifyGet fun g => by
  simp only [Generator.takeValue, Generator.pop_withRoom, Generator.useValue_withRoom]

theorem roomy_takeValues (count : Nat) : Roomy room (takeValues line count) := by
  induction count with
  | zero => exact roomy_pure _
  | succ count ih => exact roomy_bind roomy_takeValue fun _ => roomy_bind ih fun _ => roomy_pure _

end Stack

section Memory

variable {i : Instruction}

theorem roomy_appendSlot {content : Option Instruction} :
    Roomy room (onMemory (·.appendSlot content)) :=
  roomy_onMemory fun m a m' h => by
    rw [Memory.appendSlot_eq] at h ⊢
    split at h
    · cases h
    · cases h
      exact if_neg ‹_›

theorem roomy_emitAt : Roomy room (emitAt i) := roomy_appendSlot

theorem roomy_emit : Roomy room (emit i) := roomy_bind roomy_emitAt fun _ => roomy_pure ()

theorem roomy_takeNextCell : Roomy room (onMemory (·.takeNextCell)) :=
  roomy_onMemory fun m a m' h => by
    rw [Memory.takeNextCell_eq] at h ⊢
    split at h
    · cases h
    · cases h
      exact if_neg ‹_›

theorem roomy_takeCell : Roomy room (onMemory (·.takeCell)) :=
  roomy_onMemory fun m a m' h => by
    rw [Memory.takeCell_eq, Memory.takeNextCell_eq] at h ⊢
    have hspare : (m.withRoom room).spareCells = m.spareCells := rfl
    rw [hspare]
    split at h
    · cases h
      rfl
    · split at h
      · cases h
      · cases h
        exact if_neg ‹_›

/-- **A temporary that there is room for** is the same with more room. -/
theorem roomy_takeTemp : Roomy room (onMemory (·.takeTemp)) :=
  roomy_onMemory fun m a m' h => by
    rw [Memory.takeTemp_eq] at h ⊢
    split at h
    · cases h
    · rename_i hroom
      cases h
      have hmore : ¬ (m.withRoom room).capacity < (m.withRoom room).tempNext +
          (m.withRoom room).unit := by
        change ¬ m.capacity + room < m.tempNext + m.unit
        omega
      exact if_neg hmore

theorem roomy_freshTemp : Roomy room freshTemp :=
  roomy_bind roomy_takeTemp fun _ => roomy_bind (roomy_modify fun _ => rfl) fun _ => roomy_pure _

theorem Memory.dropTemp_withRoom (m : Memory) (cell : Nat) :
    (m.withRoom room).dropTemp cell = (m.dropTemp cell).withRoom room := by
  have hlatest : (m.withRoom room).isLatestTemp cell = m.isLatestTemp cell := rfl
  unfold Memory.dropTemp
  rw [hlatest]
  split <;> rfl

theorem roomy_dropTemp {cell : Nat} : Roomy room (dropTemp cell) := roomy_modify fun g => by
  rw [Generator.withRoom, Memory.dropTemp_withRoom]
  rfl

theorem roomy_settle {slot : Option Nat} : Roomy room (settle slot i) := by
  cases slot with
  | none => exact roomy_pure ()
  | some slot =>
    refine roomy_get_bind (fun g => ?_) fun _ => rfl
    split
    · refine roomy_onMemory fun m a m' h => ?_
      rw [Memory.fill_eq] at h ⊢
      split at h
      · cases h
        exact if_pos ‹_›
      · cases h
    · exact roomy_pure ()

end Memory

section Values

variable {left right : Operand} {op : Opcode}

theorem roomy_setMeaning {m : Meaning} : Roomy room (modify (·.setMeaning row m)) :=
  roomy_modify fun _ => rfl

theorem roomy_bindFresh : Roomy room (bindFresh name) :=
  roomy_bind (roomy_modifyGet fun _ => rfl) fun _ => roomy_bind roomy_takeCell fun _ =>
    roomy_bind roomy_setMeaning fun _ => roomy_pure _

/-- The cell of a name is pushed, be it found or new. -/
theorem roomy_named {found : Option Nat} : Roomy room (do
    let cell ← match found with
      | some cell => pure cell
      | none => bindFresh name
    push (.direct cell)) := by
  cases found with
  | some cell => exact roomy_bind (roomy_pure cell) fun _ => roomy_push
  | none => exact roomy_bind roomy_bindFresh fun _ => roomy_push

theorem roomy_readName : Roomy room (readName name) :=
  roomy_get_bind (fun _ => roomy_named) fun _ => rfl

theorem roomy_assignTo : Roomy room (assignTo name) :=
  roomy_get_bind (fun _ => roomy_named) fun _ => rfl

theorem roomy_requireCell : Roomy room (requireCell name line) := by
  refine roomy_get_bind (fun g => ?_) fun _ => rfl
  split
  · exact roomy_report
  · exact roomy_pure ()

theorem roomy_element {asValue : Bool} : Roomy room (element line asValue) :=
  roomy_bind roomy_takeValue fun _ => roomy_bind roomy_takeValue fun _ =>
    roomy_get_bind (fun _ => roomy_bind roomy_freshTemp fun _ => roomy_bind roomy_emit fun _ =>
      roomy_bind roomy_freshTemp fun _ => roomy_bind roomy_emit fun _ => roomy_push) fun _ => rfl

theorem roomy_startList : Roomy room startList :=
  roomy_get_bind (fun _ => roomy_push) fun _ => rfl

theorem roomy_storeItem : Roomy room (storeItem line) :=
  roomy_bind roomy_takeValue fun _ => roomy_bind roomy_takeNextCell fun _ => roomy_emit

theorem roomy_bindGlobal : Roomy room (bindGlobal name line) := by
  refine roomy_get_bind (fun g => ?_) fun _ => rfl
  split
  · exact roomy_pure ()
  · split
    · exact roomy_report
    · exact roomy_bind (roomy_modifyGet fun _ => rfl) fun _ => roomy_setMeaning

theorem roomy_operate : Roomy room (operate op left right) :=
  roomy_bind roomy_freshTemp fun _ => roomy_bind roomy_emit fun _ => roomy_push

theorem roomy_combine : Roomy room (combine op line) :=
  roomy_bind roomy_takeValue fun _ => roomy_bind roomy_takeValue fun _ => roomy_operate

theorem roomy_relate : Roomy room (relate line) :=
  roomy_bind roomy_takeValue fun _ => roomy_bind roomy_pop fun _ =>
    roomy_bind roomy_takeValue fun _ => roomy_operate

theorem roomy_raise : Roomy room (raise line) :=
  roomy_bind roomy_takeValue fun _ => roomy_bind roomy_takeValue fun _ =>
    roomy_bind roomy_freshTemp fun _ => roomy_bind roomy_freshTemp fun _ =>
    roomy_bind roomy_freshTemp fun _ => roomy_bind roomy_emit fun _ =>
    roomy_bind roomy_emit fun _ => roomy_bind roomy_emitAt fun _ =>
    roomy_bind roomy_emit fun _ => roomy_bind roomy_emit fun _ =>
    roomy_bind roomy_emit fun _ => roomy_bind roomy_emit fun _ =>
    roomy_bind roomy_dropTemp fun _ => roomy_bind roomy_dropTemp fun _ => roomy_push

theorem roomy_printValue : Roomy room (printValue line) :=
  roomy_bind roomy_takeValue fun _ => roomy_emit

end Values

section Control

theorem roomy_mapDefinition {f : Definition → Definition} :
    Roomy room (modify (·.mapDefinition f)) :=
  roomy_modify fun _ => rfl

theorem roomy_holdSlot : Roomy room holdSlot :=
  roomy_bind roomy_appendSlot fun _ => roomy_bind roomy_push fun _ => roomy_mapDefinition

theorem roomy_heldSlot : Roomy room heldSlot :=
  roomy_bind roomy_mapDefinition fun _ => roomy_bind roomy_pop fun _ => roomy_pure _

theorem roomy_settleCondition {distance : Nat} : Roomy room (settleCondition distance) :=
  roomy_bind roomy_heldSlot fun _ => roomy_bind roomy_pop fun _ =>
    roomy_get_bind (fun _ => roomy_settle) fun _ => rfl

theorem roomy_startElse : Roomy room startElse :=
  roomy_bind roomy_settleCondition fun _ => roomy_holdSlot

theorem roomy_endElse : Roomy room endElse :=
  roomy_bind roomy_heldSlot fun _ => roomy_get_bind (fun _ => roomy_settle) fun _ => rfl

theorem roomy_loopRecord : Roomy room loopRecord := by
  refine roomy_get_bind (fun g => ?_) fun _ => rfl
  dsimp only
  split
  · exact roomy_defect
  · split
    · exact roomy_pure _
    · exact roomy_bind roomy_setMeaning fun _ => roomy_pure _
    · exact roomy_defect

theorem roomy_startLoop : Roomy room startLoop :=
  roomy_get_bind (fun _ => roomy_bind roomy_loopRecord fun _ =>
    roomy_bind roomy_setMeaning fun _ => roomy_modify fun _ => rfl) fun _ => rfl

theorem roomy_settleLoop {slot : Option Nat} {condition : Operand} {closed : ClosedLoop} :
    Roomy room (settleLoop slot condition closed) :=
  roomy_bind roomy_emit fun _ => roomy_get_bind (fun _ => roomy_bind roomy_settle fun _ =>
    roomy_bind (roomy_forM (fun _ => roomy_settle) _) fun _ =>
      roomy_forM (fun _ => roomy_settle) _) fun _ => rfl

theorem roomy_endLoop : Roomy room endLoop := by
  refine roomy_bind roomy_heldSlot fun slot => roomy_bind roomy_pop fun condition =>
    roomy_bind roomy_loopRecord fun ⟨row, record⟩ => ?_
  have hleave : Roomy room (modify (·.leaveScope)) := roomy_modify fun _ => rfl
  dsimp only
  split
  · exact roomy_bind roomy_setMeaning fun _ => roomy_bind roomy_settleLoop fun _ => hleave
  · exact hleave

theorem roomy_leaveLoop {outside : SemanticFault} {add : LoopRecord → Nat → LoopRecord} :
    Roomy room (leaveLoop line outside add) := by
  refine roomy_get_bind (fun g => ?_) fun _ => rfl
  split
  · exact roomy_bind roomy_appendSlot fun _ => roomy_bind roomy_loopRecord fun _ =>
      roomy_setMeaning
  · exact roomy_report

end Control

section Functions

variable {info : FunctionInfo} {o : Operand} {arguments : List Operand}

theorem roomy_startFunction : Roomy room (startFunction name) :=
  roomy_bind roomy_appendSlot fun _ => roomy_bind roomy_takeCell fun _ =>
    roomy_bind roomy_takeCell fun _ => roomy_bind (roomy_modifyGet fun _ => rfl) fun _ =>
      roomy_get_bind (fun _ => roomy_bind (roomy_modify fun _ => rfl) fun _ =>
        roomy_modify fun _ => rfl) fun _ => rfl

theorem roomy_addParameter : Roomy room (addParameter name) :=
  roomy_bind roomy_bindFresh fun _ => roomy_mapDefinition

theorem roomy_giveMeaning {change : Meaning → Except MeaningError Meaning} :
    Roomy room (giveMeaning row change) := by
  refine roomy_get_bind (fun g => ?_) fun _ => rfl
  split
  · exact roomy_pure ()
  · split
    · exact roomy_setMeaning
    · exact roomy_defect

theorem roomy_publish : Roomy room publish := by
  refine roomy_get_bind (fun g => ?_) fun _ => rfl
  split
  · exact roomy_pure ()
  · split
    · exact roomy_pure ()
    · exact roomy_bind roomy_mapDefinition fun _ => roomy_giveMeaning

theorem roomy_returningFrom : Roomy room returningFrom := by
  refine roomy_get_bind (fun g => ?_) fun _ => rfl
  split
  · exact roomy_pure _
  · split
    · exact roomy_bind roomy_mapDefinition fun _ => roomy_pure _
    · exact roomy_pure _

theorem roomy_functionOn : Roomy room (functionOn row) := by
  refine roomy_get_bind (fun g => ?_) fun _ => rfl
  dsimp only
  split
  · exact roomy_pure _
  · exact roomy_defect

theorem roomy_emitReturn : Roomy room (emitReturn info o) :=
  roomy_bind roomy_emit fun _ => roomy_emit

theorem roomy_returnWith : Roomy room (returnWith line) := by
  refine roomy_bind roomy_takeValue fun _ => roomy_bind roomy_returningFrom fun row => ?_
  split
  · exact roomy_pure ()
  · exact roomy_bind roomy_functionOn fun _ => roomy_bind roomy_emitReturn fun _ => roomy_setMeaning

theorem roomy_returnNothing : Roomy room returnNothing := by
  refine roomy_bind roomy_returningFrom fun row => ?_
  split
  · exact roomy_pure ()
  · exact roomy_bind roomy_functionOn fun _ => roomy_emit

theorem roomy_endFunction : Roomy room endFunction := by
  refine roomy_bind roomy_publish fun _ => roomy_get_bind (fun g => ?_) fun _ => rfl
  split
  · exact roomy_pure ()
  · rename_i d rest _
    have hlast : Roomy room (get >>= fun g' : Generator =>
        settle (some d.aroundSlot) (.jump g'.programNext) >>= fun _ =>
          modify (·.leaveScope) >>= fun _ => modify ({ · with lastDefined := some d.row })) :=
      roomy_get_bind (fun _ => roomy_bind roomy_settle fun _ =>
        roomy_bind (roomy_modify fun _ => rfl) fun _ => roomy_modify fun _ => rfl) fun _ => rfl
    refine roomy_bind (roomy_modify fun _ => rfl) fun _ => ?_
    dsimp only
    split
    · exact roomy_bind roomy_functionOn fun _ => roomy_bind roomy_emitReturn fun _ => hlast
    · exact hlast

theorem Memory.freeCells_withRoom (m : Memory) (cells : List Nat) :
    cells.foldl Memory.freeCell (m.withRoom room) =
      (cells.foldl Memory.freeCell m).withRoom room := by
  induction cells generalizing m with
  | nil => rfl
  | cons cell cells ih =>
    have hfree : (m.withRoom room).freeCell cell = (m.freeCell cell).withRoom room := by
      have hspare : (m.withRoom room).spareCells = m.spareCells := rfl
      unfold Memory.freeCell
      rw [hspare]
      split <;> rfl
    rw [List.foldl_cons, List.foldl_cons, hfree, ih]

theorem roomy_retireFunction : Roomy room (modify (·.retireFunction row)) :=
  roomy_modify fun g => by
    unfold Generator.retireFunction Generator.withRoom
    rw [← Memory.freeCells_withRoom]

theorem roomy_retireRivals : Roomy room (retireRivals line) := by
  refine roomy_get_bind (fun g => ?_) fun _ => rfl
  split
  · exact roomy_pure ()
  · exact roomy_bind (roomy_modify fun _ => rfl) fun _ =>
      roomy_forM (fun _ => roomy_bind roomy_report fun _ => roomy_retireFunction) _

theorem roomy_startCall : Roomy room (startCall name) :=
  roomy_bind roomy_push fun _ => roomy_modify fun _ => rfl

theorem roomy_countArgument : Roomy room countArgument := by
  refine roomy_bind (roomy_modifyGet fun g => ?_) fun _ => roomy_push
  have hstack : (g.withRoom room).stack = g.stack := rfl
  rw [hstack]
  split <;> rfl

theorem roomy_jumpInto : Roomy room (jumpInto info) :=
  roomy_get_bind (fun _ => roomy_bind roomy_emit fun _ => roomy_emit) fun _ => rfl

theorem roomy_callFunction : Roomy room (callFunction row info arguments) := by
  refine roomy_bind (roomy_forM (fun _ => roomy_emit) _) fun _ => roomy_bind roomy_jumpInto fun _ =>
    roomy_bind roomy_freshTemp fun result => roomy_bind roomy_emit fun _ =>
      roomy_get_bind (fun g => ?_) fun _ => rfl
  dsimp only
  split
  · exact roomy_bind (roomy_modify fun _ => rfl) fun _ => roomy_push
  · exact roomy_push

theorem roomy_resolveCall : Roomy room (resolveCall line) := by
  refine roomy_bind roomy_pop fun counter => roomy_get_bind (fun g₁ => ?_) fun _ => rfl
  refine roomy_bind (roomy_takeValues _) fun arguments => roomy_get_bind (fun g₂ => ?_) fun _ => rfl
  refine roomy_bind (roomy_modify fun _ => rfl) fun _ => roomy_get_bind (fun g₃ => ?_) fun _ => rfl
  dsimp only
  split
  · exact roomy_callFunction
  · exact roomy_bind roomy_report fun _ => roomy_push

/-- **The end of a program** takes no temporary. -/
theorem roomy_callMain : Roomy room (callMain line) := by
  refine roomy_get_bind (fun g => ?_) fun _ => rfl
  split
  · exact roomy_bind roomy_functionOn fun _ => roomy_jumpInto
  · exact roomy_report

end Functions

section Zone

/-- **No operand names a cell beyond the capacity.** -/
def InBounds (g : Generator) : Prop :=
  ∀ o ∈ g.stack, o.mode = .direct → o.value < g.memory.capacity

theorem InBounds.pop (h : InBounds g) (hmode : g.pop.1.mode = .direct) :
    g.pop.1.value < g.memory.capacity := by
  cases hst : g.stack with
  | nil =>
    have hpop : g.pop.1 = .immediate 0 := by
      simp [Generator.pop, OperandStack.pop?, OperandStack.take?, OperandStack.at?, hst]
    rw [hpop] at hmode
    cases hmode
  | cons o st =>
    rw [Generator.pop_eq hst] at hmode ⊢
    exact h o (by rw [hst]; exact List.mem_cons_self) hmode

theorem InBounds.takeValue (h : InBounds g) : InBounds (g.takeValue line).2 := by
  obtain ⟨_, _, heq⟩ := g.pop.2.useValue_eq line g.pop.1
  have hstack : (g.takeValue line).2.stack = g.pop.2.stack := (congrArg Generator.stack heq :)
  intro o ho hmode
  rw [hstack] at ho
  rw [Generator.memory_takeValue]
  exact h o ((sublist_pop g).subset ho) hmode

/-- More room makes no temporaries of cells below the capacity. -/
theorem inTempZone_withRoom {m : Memory} {value : Int} (h : value < m.capacity) :
    (m.withRoom room).inTempZone value = m.inTempZone value := by
  have hmore : value < (m.withRoom room).capacity := by
    change value < ((m.capacity + room : Nat) : Int)
    omega
  unfold Memory.inTempZone
  rw [decide_eq_true h, decide_eq_true hmore]
  rfl

/-- **An assignment** is written through the same temporaries. -/
theorem roomyAt_store (h : InBounds g) : RoomyAt room (store line) g := by
  refine roomyAt_bind (roomy_takeValue g) (ends_takeValue.2 ?_)
  have hvalue : InBounds (g.takeValue line).2 := h.takeValue
  refine roomyAt_bind (roomy_pop _) (ends_pop.2 (roomyAt_get_bind (roomy_emit _) ?_))
  have hthrough : ∀ target : Operand,
      (target.mode = .direct → target.value < (g.takeValue line).2.pop.2.memory.capacity) →
      writtenThrough ((g.takeValue line).2.pop.2.withRoom room).memory target =
        writtenThrough (g.takeValue line).2.pop.2.memory target := by
    intro target htarget
    unfold writtenThrough
    by_cases hmode : target.mode = .direct
    · have hzone : (((g.takeValue line).2.pop.2.withRoom room).memory).inTempZone target.value =
          (g.takeValue line).2.pop.2.memory.inTempZone target.value :=
        inTempZone_withRoom (htarget hmode)
      rw [hzone]
    · rw [if_neg fun h => hmode h.1, if_neg fun h => hmode h.1]
  rw [hthrough _ fun hmode => by rw [Generator.memory_pop]; exact hvalue.pop hmode]

/-- **The result of a call that is dropped** is given back just if it was. -/
theorem roomyAt_dropResult (h : InBounds g) : RoomyAt room dropResult g := by
  refine roomyAt_bind (roomy_pop g) (ends_pop.2 (roomyAt_get_bind ?_ ?_))
  · split
    · split
      · rename_i cell _
        have hclear : Roomy room (modify (·.clearVoid cell)) := roomy_modify fun _ => rfl
        exact roomyAt_bind (hclear _) fun _ g' _ => roomy_dropTemp g'
      · exact roomy_pure () _
    · exact roomy_pure () _
  · by_cases hmode : g.pop.1.mode = .direct
    · have hzone : ((g.pop.2.withRoom room).memory).inTempZone g.pop.1.value =
          g.pop.2.memory.inTempZone g.pop.1.value :=
        inTempZone_withRoom (by rw [Generator.memory_pop]; exact h.pop hmode)
      rw [hzone]
    · have hcell : Generator.directCell? g.pop.1 = none := if_neg hmode
      rw [hcell]
      simp only [ite_self]

/-- **Every action** that ends does so with more room as well. -/
theorem roomyAt_perform (a : Action) (h : InBounds g) : RoomyAt room (perform a lexeme line) g := by
  cases a with
  | pushId => exact roomy_readName g
  | pushNumber => exact roomy_push g
  | pushTarget => exact roomy_assignTo g
  | checkDefined => exact roomy_requireCell g
  | elementAddress => exact roomy_element g
  | elementValue => exact roomy_element g
  | listBegin => exact roomy_startList g
  | listItem => exact roomy_storeItem g
  | add => exact roomy_combine g
  | sub => exact roomy_combine g
  | mult => exact roomy_combine g
  | power => exact roomy_raise g
  | markEq => exact roomy_push g
  | markLt => exact roomy_push g
  | compare => exact roomy_relate g
  | assign => exact roomyAt_store h
  | print => exact roomy_printValue g
  | global => exact roomy_bindGlobal g
  | breakLoop => exact roomy_leaveLoop g
  | continueLoop => exact roomy_leaveLoop g
  | save => exact roomy_holdSlot g
  | falseJump => exact roomy_settleCondition g
  | falseJumpSave => exact roomy_startElse g
  | jump => exact roomy_endElse g
  | loopBegin => exact roomy_startLoop g
  | loopEnd => exact roomy_endLoop g
  | beginCall => exact roomy_startCall g
  | takeArgument => exact roomy_countArgument g
  | dispatch => exact roomy_resolveCall g
  | discardResult => exact roomyAt_dropResult h
  | enterFunction => exact roomy_startFunction g
  | param => exact roomy_addParameter g
  | paramsDone => exact roomy_publish g
  | returnValue => exact roomy_returnWith g
  | returnVoid => exact roomy_returnNothing g
  | exitFunction => exact roomy_endFunction g
  | checkOverload => exact roomy_retireRivals g

end Zone

end Emission

end OnePass
