import OnePass.Proofs.Emission.Ensures
import OnePass.Proofs.Emission.Functions
import OnePass.Proofs.Emission.Temporaries

/-!
# Properties that most actions have nothing to do with

Most actions only move operands, append code and fill slots. A property that does not mind
such changes is kept by all of them, whatever it says of names, cells and definitions.

* `Upholds`: a step that a property outlives. `upholds_bind` and the others.
* `Remote`: a property that does not mind operands and code. `Remote.preserves_emit` and the others
  keep it where a step fails, too; `Remote.emit`, `Remote.takeValue`, … where it ends.
* `Aloof`: one that does not mind calls, either.
* `isAside`: actions that change operands and code only. `Aloof.preserves_perform`, `Aloof.perform`.
-/

namespace OnePass.Emission

open Grammar (Action)
open Names Target

/-- **A step that a property outlives.** -/
def Upholds (I : Generator → Prop) {α : Type} (x : Emit α) : Prop :=
  ∀ g, I g → Ends x g fun _ g' => I g'

section Upholds

variable {α β : Type} {I : Generator → Prop}

theorem Preserves.upholds {x : Emit α} (h : Preserves I x) : Upholds I x := fun g hg =>
  (h g hg).ends

theorem upholds_pure (a : α) : Upholds I (pure a) := fun _ h => (ends_pure a).2 h

theorem upholds_bind {x : Emit α} {f : α → Emit β} (hx : Upholds I x)
    (hf : ∀ a, Upholds I (f a)) : Upholds I (x >>= f) := fun g h =>
  ends_bind.2 ((hx g h).mono fun a g₁ h₁ => hf a g₁ h₁)

theorem upholds_get : Upholds I get := fun _ h => ends_get.2 h

theorem upholds_modify {f : Generator → Generator} (hf : ∀ g, I g → I (f g)) :
    Upholds I (modify f) := fun g h => ends_modify.2 (hf g h)

theorem upholds_modifyGet {f : Generator → α × Generator} (hf : ∀ g, I g → I (f g).2) :
    Upholds I (modifyGet f) := fun g h => ends_modifyGet.2 (hf g h)

theorem upholds_defect {e : Defect} : Upholds I (defect e : Emit α) := fun _ _ => ends_defect

theorem upholds_forM {γ : Type} {f : γ → Emit Unit} {items : List γ}
    (hf : ∀ x, Upholds I (f x)) : Upholds I (items.forM f) := fun _ h =>
  ends_forM h fun x _ g hg => hf x g hg

end Upholds

/-- **A property that does not mind operands and code,** but may mind which calls wait. -/
structure Remote (I : Generator → Prop) : Prop where
  /-- The operands, the errors and the void results do not matter. -/
  aside : ∀ {g g' : Generator}, I g → g'.symbols = g.symbols → g'.memory = g.memory →
    g'.definitions = g.definitions → g'.lastDefined = g.lastDefined →
      g'.pendingCalls = g.pendingCalls → I g'
  append : ∀ {g : Generator} (content : Option Instruction), I g →
    g.programNext < g.memory.programSize → I (g.append content)
  filled : ∀ {g : Generator} (slot : Nat) (i : Instruction), I g → I (g.filled slot i)
  withTemp : ∀ {g : Generator}, I g →
    g.memory.tempNext + g.memory.unit ≤ g.memory.capacity → I g.withTemp
  dropTemp : ∀ {g : Generator} (cell : Nat), I g → I (g.dropTemp cell)
  /-- Of a definition only its row, its scope and its header matter. -/
  mapDefinition : ∀ {g : Generator} {f : Definition → Definition}, I g →
    (∀ d, (f d).row = d.row) → (∀ d, (f d).scope = d.scope) → (∀ d, (f d).header = d.header) →
      I (g.mapDefinition f)

theorem Remote.and {I J : Generator → Prop} (h : Remote I) (h' : Remote J) :
    Remote fun g => I g ∧ J g where
  aside hg hs hm hd hl hc := ⟨h.aside hg.1 hs hm hd hl hc, h'.aside hg.2 hs hm hd hl hc⟩
  append content hg hlt := ⟨h.append content hg.1 hlt, h'.append content hg.2 hlt⟩
  filled slot i hg := ⟨h.filled slot i hg.1, h'.filled slot i hg.2⟩
  withTemp hg hle := ⟨h.withTemp hg.1 hle, h'.withTemp hg.2 hle⟩
  dropTemp cell hg := ⟨h.dropTemp cell hg.1, h'.dropTemp cell hg.2⟩
  mapDefinition hg hr hs hh := ⟨h.mapDefinition hg.1 hr hs hh, h'.mapDefinition hg.2 hr hs hh⟩

/-- **A property that does not mind operands, code and calls.** -/
structure Aloof (I : Generator → Prop) : Prop extends Remote I where
  calls : ∀ {g : Generator} (names : List String), I g → I { g with pendingCalls := names }

namespace Aloof

variable {I : Generator → Prop} {line : Nat} {name : String}

theorem and {J : Generator → Prop} (h : Aloof I) (h' : Aloof J) : Aloof fun g => I g ∧ J g where
  toRemote := h.toRemote.and h'.toRemote
  calls names hg := ⟨h.calls names hg.1, h'.calls names hg.2⟩

theorem congr {J : Generator → Prop} (h : Aloof I) (heq : ∀ g, J g ↔ I g) : Aloof J := by
  rw [funext fun g => propext (heq g)]
  exact h

/-- What only has to do with the table. -/
theorem of_symbols {P : SymbolTable → Prop} : Aloof fun g => P g.symbols where
  aside hg hs _ _ _ _ := hs ▸ hg
  append _ hg _ := hg
  filled _ _ hg := hg
  withTemp hg _ := hg
  dropTemp _ hg := hg
  mapDefinition hg _ _ _ := hg
  calls _ hg := hg

end Aloof

namespace Remote

variable {I : Generator → Prop} {line : Nat} {name : String}

section Operands

theorem preserves_push (h : Remote I) {o : Operand} : Preserves I (push o) :=
  preserves_modify fun _ hg => h.aside hg rfl rfl rfl rfl rfl

theorem preserves_report (h : Remote I) {fault : SemanticFault} :
    Preserves I (report line fault) :=
  preserves_modify fun _ hg => h.aside hg rfl rfl rfl rfl rfl

theorem preserves_pop (h : Remote I) : Preserves I pop := preserves_modifyGet fun g hg => by
  obtain ⟨st, hst⟩ := g.pop_frame
  rw [hst]
  exact h.aside hg rfl rfl rfl rfl rfl

theorem preserves_takeValue (h : Remote I) : Preserves I (takeValue line) :=
  preserves_modifyGet fun g hg => by
    obtain ⟨st, voids, errors, hst⟩ := g.takeValue_frame line
    rw [hst]
    exact h.aside hg rfl rfl rfl rfl rfl

theorem preserves_takeValues (h : Remote I) (count : Nat) :
    Preserves I (takeValues line count) := by
  induction count with
  | zero => exact preserves_pure _
  | succ count ih =>
    exact preserves_bind h.preserves_takeValue fun _ => preserves_bind ih fun _ => preserves_pure _

end Operands

section Code

theorem preserves_emitAt (h : Remote I) {i : Instruction} : Preserves I (emitAt i) := fun _ hg =>
  (ends_emitAt.2 (h.append _ hg)).ensures atomic_onMemory hg

theorem preserves_emit (h : Remote I) {i : Instruction} : Preserves I (emit i) :=
  preserves_bind h.preserves_emitAt fun _ => preserves_pure ()

theorem preserves_reserve (h : Remote I) : Preserves I (onMemory (·.reserve)) := fun _ hg =>
  (ends_reserve.2 (h.append _ hg)).ensures atomic_onMemory hg

theorem preserves_freshTemp (h : Remote I) : Preserves I freshTemp := fun _ hg =>
  (ends_freshTemp.2 (h.withTemp hg)).ensures atomic_freshTemp hg

theorem preserves_dropTemp (h : Remote I) {cell : Nat} : Preserves I (Emission.dropTemp cell) :=
  preserves_modify fun _ hg => h.dropTemp cell hg

theorem preserves_settle (h : Remote I) {slot : Option Nat} {i : Instruction} :
    Preserves I (settle slot i) := by
  cases slot with
  | none => exact preserves_pure ()
  | some slot =>
    refine fun g hg => Ends.ensures ?_ atomic_settle hg
    rw [ends_settle]
    split
    · exact h.filled slot i hg
    · exact hg

end Code

section Values

theorem preserves_requireCell (h : Remote I) : Preserves I (requireCell name line) := by
  refine preserves_bind preserves_get fun g => ?_
  split
  · exact h.preserves_report
  · exact preserves_pure ()

theorem preserves_operate (h : Remote I) {op : Opcode} {left right : Operand} :
    Preserves I (operate op left right) :=
  preserves_bind h.preserves_freshTemp fun _ => preserves_bind h.preserves_emit fun _ =>
    h.preserves_push

theorem preserves_combine (h : Remote I) {op : Opcode} : Preserves I (combine op line) :=
  preserves_bind h.preserves_takeValue fun _ => preserves_bind h.preserves_takeValue fun _ =>
    h.preserves_operate

theorem preserves_relate (h : Remote I) : Preserves I (relate line) :=
  preserves_bind h.preserves_takeValue fun _ => preserves_bind h.preserves_pop fun _ =>
    preserves_bind h.preserves_takeValue fun _ => h.preserves_operate

theorem preserves_raise (h : Remote I) : Preserves I (raise line) :=
  preserves_bind h.preserves_takeValue fun _ => preserves_bind h.preserves_takeValue fun _ =>
    preserves_bind h.preserves_freshTemp fun _ => preserves_bind h.preserves_freshTemp fun _ =>
      preserves_bind h.preserves_freshTemp fun _ => preserves_bind h.preserves_emit fun _ =>
        preserves_bind h.preserves_emit fun _ => preserves_bind h.preserves_emitAt fun _ =>
          preserves_bind h.preserves_emit fun _ => preserves_bind h.preserves_emit fun _ =>
            preserves_bind h.preserves_emit fun _ => preserves_bind h.preserves_emit fun _ =>
              preserves_bind h.preserves_dropTemp fun _ =>
                preserves_bind h.preserves_dropTemp fun _ => h.preserves_push

theorem preserves_element (h : Remote I) {asValue : Bool} : Preserves I (element line asValue) :=
  preserves_bind h.preserves_takeValue fun _ => preserves_bind h.preserves_takeValue fun _ =>
    preserves_bind preserves_get fun _ => preserves_bind h.preserves_freshTemp fun _ =>
      preserves_bind h.preserves_emit fun _ => preserves_bind h.preserves_freshTemp fun _ =>
        preserves_bind h.preserves_emit fun _ => h.preserves_push

theorem preserves_startList (h : Remote I) : Preserves I startList :=
  preserves_bind preserves_get fun _ => h.preserves_push

theorem preserves_store (h : Remote I) : Preserves I (store line) :=
  preserves_bind h.preserves_takeValue fun _ => preserves_bind h.preserves_pop fun _ =>
    preserves_bind preserves_get fun _ => h.preserves_emit

theorem preserves_printValue (h : Remote I) : Preserves I (printValue line) :=
  preserves_bind h.preserves_takeValue fun _ => h.preserves_emit

end Values

section Calls

theorem preserves_countArgument (h : Remote I) : Preserves I countArgument := by
  refine preserves_bind (preserves_modifyGet fun g hg => ?_) fun _ => h.preserves_push
  split
  · exact h.aside hg rfl rfl rfl rfl rfl
  · exact hg

theorem preserves_jumpInto (h : Remote I) {info : FunctionInfo} : Preserves I (jumpInto info) :=
  preserves_bind preserves_get fun _ => preserves_bind h.preserves_emit fun _ => h.preserves_emit

theorem preserves_callFunction (h : Remote I) {row : Nat} {info : FunctionInfo}
    {arguments : List Operand} : Preserves I (callFunction row info arguments) := by
  refine preserves_bind (preserves_forM (fun _ => h.preserves_emit) _) fun _ =>
    preserves_bind h.preserves_jumpInto fun _ => preserves_bind h.preserves_freshTemp fun _ =>
      preserves_bind h.preserves_emit fun _ => preserves_bind preserves_get fun g => ?_
  dsimp only
  split
  · refine preserves_bind (preserves_modify fun _ hg => ?_) fun _ => h.preserves_push
    exact h.aside hg rfl rfl rfl rfl rfl
  · exact h.preserves_push

theorem preserves_dropResult (h : Remote I) : Preserves I dropResult := by
  refine preserves_bind h.preserves_pop fun _ => preserves_bind preserves_get fun _ => ?_
  split
  · split
    · refine preserves_bind (preserves_modify fun _ hg => ?_) fun _ => h.preserves_dropTemp
      exact h.aside hg rfl rfl rfl rfl rfl
    · exact preserves_pure ()
  · exact preserves_pure ()

theorem preserves_functionOn {row : Nat} : Preserves I (functionOn row) := fun _ hg =>
  (ends_functionOn.mono fun _ _ heq => heq.1 ▸ hg).ensures atomic_functionOn hg

theorem preserves_callMain (h : Remote I) : Preserves I (callMain line) := by
  refine preserves_bind preserves_get fun g => ?_
  split
  · exact preserves_bind preserves_functionOn fun info => h.preserves_jumpInto
  · exact h.preserves_report

end Calls

section Control

theorem preserves_mapFlags (h : Remote I) {f : Definition → Definition}
    (hrow : ∀ d, (f d).row = d.row) (hscope : ∀ d, (f d).scope = d.scope)
    (hheader : ∀ d, (f d).header = d.header) : Preserves I (modify (·.mapDefinition f)) :=
  preserves_modify fun _ hg => h.mapDefinition hg hrow hscope hheader

theorem preserves_holdSlot (h : Remote I) : Preserves I holdSlot :=
  preserves_bind h.preserves_reserve fun _ => preserves_bind h.preserves_push fun _ =>
    h.preserves_mapFlags (fun _ => rfl) (fun _ => rfl) fun _ => rfl

theorem preserves_heldSlot (h : Remote I) : Preserves I heldSlot :=
  preserves_bind (h.preserves_mapFlags (fun _ => rfl) (fun _ => rfl) fun _ => rfl) fun _ =>
    preserves_bind h.preserves_pop fun _ => preserves_pure _

theorem preserves_settleCondition (h : Remote I) {distance : Nat} :
    Preserves I (settleCondition distance) :=
  preserves_bind h.preserves_heldSlot fun _ => preserves_bind h.preserves_pop fun _ =>
    preserves_bind preserves_get fun _ => h.preserves_settle

theorem preserves_startElse (h : Remote I) : Preserves I startElse :=
  preserves_bind h.preserves_settleCondition fun _ => h.preserves_holdSlot

theorem preserves_endElse (h : Remote I) : Preserves I endElse :=
  preserves_bind h.preserves_heldSlot fun _ => preserves_bind preserves_get fun _ =>
    h.preserves_settle

theorem preserves_settleLoop (h : Remote I) {slot : Option Nat} {condition : Operand}
    {closed : ClosedLoop} : Preserves I (settleLoop slot condition closed) :=
  preserves_bind h.preserves_emit fun _ => preserves_bind preserves_get fun _ =>
    preserves_bind h.preserves_settle fun _ =>
      preserves_bind (preserves_forM (fun _ => h.preserves_settle) _) fun _ =>
        preserves_forM (fun _ => h.preserves_settle) _

end Control

section Returns

theorem preserves_returningFrom (h : Remote I) : Preserves I returningFrom := by
  refine preserves_bind preserves_get fun g => ?_
  split
  · exact preserves_pure _
  · split
    · exact preserves_bind
        (h.preserves_mapFlags (fun _ => rfl) (fun _ => rfl) fun _ => rfl) fun _ => preserves_pure _
    · exact preserves_pure _

theorem preserves_emitReturn (h : Remote I) {info : FunctionInfo} {value : Operand} :
    Preserves I (emitReturn info value) :=
  preserves_bind h.preserves_emit fun _ => h.preserves_emit

theorem preserves_returnNothing (h : Remote I) : Preserves I returnNothing := by
  refine preserves_bind h.preserves_returningFrom fun row => ?_
  split
  · exact preserves_pure ()
  · exact preserves_bind preserves_functionOn fun _ => h.preserves_emit

end Returns

section Results

variable {o value condition : Operand} {i : Instruction} {row : Nat} {slot : Option Nat}
  {info : FunctionInfo}

theorem push (h : Remote I) : Upholds I (push o) := h.preserves_push.upholds

theorem report (h : Remote I) {fault : SemanticFault} : Upholds I (report line fault) :=
  h.preserves_report.upholds

theorem pop (h : Remote I) : Upholds I pop := h.preserves_pop.upholds

theorem takeValue (h : Remote I) : Upholds I (takeValue line) := h.preserves_takeValue.upholds

theorem takeValues (h : Remote I) (count : Nat) : Upholds I (takeValues line count) :=
  (h.preserves_takeValues count).upholds

theorem emit (h : Remote I) : Upholds I (emit i) := h.preserves_emit.upholds

theorem reserve (h : Remote I) : Upholds I (onMemory (·.reserve)) := h.preserves_reserve.upholds

theorem settle (h : Remote I) : Upholds I (settle slot i) := h.preserves_settle.upholds

theorem callFunction (h : Remote I) {arguments : List Operand} :
    Upholds I (callFunction row info arguments) := h.preserves_callFunction.upholds

theorem callMain (h : Remote I) : Upholds I (callMain line) := h.preserves_callMain.upholds

theorem heldSlot (h : Remote I) : Upholds I heldSlot := h.preserves_heldSlot.upholds

theorem settleLoop (h : Remote I) {closed : ClosedLoop} :
    Upholds I (settleLoop slot condition closed) := h.preserves_settleLoop.upholds

theorem functionOn : Upholds I (functionOn row) := preserves_functionOn.upholds

theorem returningFrom (h : Remote I) : Upholds I returningFrom := h.preserves_returningFrom.upholds

theorem emitReturn (h : Remote I) : Upholds I (emitReturn info value) :=
  h.preserves_emitReturn.upholds

end Results

end Remote

/-- Actions that change operands and code only. -/
def isAside : Action → Bool
  | .pushId | .pushTarget | .listItem | .global | .breakLoop | .continueLoop | .loopBegin
  | .loopEnd | .enterFunction | .param | .paramsDone | .returnValue | .exitFunction
  | .checkOverload => false
  | _ => true

/-- **Actions that only compute leave alone** what does not mind operands and code. -/
theorem Remote.preserves_perform {I : Generator → Prop} (h : Remote I) {a : Action}
    (ha : isAside a = true) (hbegin : a ≠ .beginCall) (hdispatch : a ≠ .dispatch)
    {lexeme : String} {line : Nat} : Preserves I (perform a lexeme line) := by
  cases a with
  | pushNumber => exact h.preserves_push
  | checkDefined => exact h.preserves_requireCell
  | elementAddress => exact h.preserves_element
  | elementValue => exact h.preserves_element
  | listBegin => exact h.preserves_startList
  | add => exact h.preserves_combine
  | sub => exact h.preserves_combine
  | mult => exact h.preserves_combine
  | power => exact h.preserves_raise
  | markEq => exact h.preserves_push
  | markLt => exact h.preserves_push
  | compare => exact h.preserves_relate
  | assign => exact h.preserves_store
  | print => exact h.preserves_printValue
  | save => exact h.preserves_holdSlot
  | falseJump => exact h.preserves_settleCondition
  | falseJumpSave => exact h.preserves_startElse
  | jump => exact h.preserves_endElse
  | beginCall => exact absurd rfl hbegin
  | takeArgument => exact h.preserves_countArgument
  | dispatch => exact absurd rfl hdispatch
  | discardResult => exact h.preserves_dropResult
  | returnVoid => exact h.preserves_returnNothing
  | _ => cases ha

theorem Remote.perform {I : Generator → Prop} (h : Remote I) {a : Action} (ha : isAside a = true)
    (hbegin : a ≠ .beginCall) (hdispatch : a ≠ .dispatch) {lexeme : String} {line : Nat} :
    Upholds I (perform a lexeme line) := (h.preserves_perform ha hbegin hdispatch).upholds

namespace Aloof

variable {I : Generator → Prop} {line : Nat} {name : String}

theorem preserves_startCall (h : Aloof I) : Preserves I (startCall name) :=
  preserves_bind h.preserves_push fun _ =>
    preserves_modify fun g hg => h.calls (name :: g.pendingCalls) hg

theorem preserves_resolveCall (h : Aloof I) : Preserves I (resolveCall line) := by
  refine preserves_bind h.preserves_pop fun _ => preserves_bind preserves_get fun _ =>
    preserves_bind (h.preserves_takeValues _) fun _ => preserves_bind preserves_get fun _ =>
      preserves_bind (preserves_modify fun g hg => h.calls g.pendingCalls.tail hg) fun _ =>
        preserves_bind preserves_get fun _ => ?_
  dsimp only
  split
  · exact h.preserves_callFunction
  · exact preserves_bind h.preserves_report fun _ => h.preserves_push

/-- Calls are no matter, either. -/
theorem preserves_perform (h : Aloof I) {a : Action} (ha : isAside a = true) {lexeme : String} :
    Preserves I (perform a lexeme line) := by
  by_cases hbegin : a = .beginCall
  · subst hbegin
    exact h.preserves_startCall
  · by_cases hdispatch : a = .dispatch
    · subst hdispatch
      exact h.preserves_resolveCall
    · exact h.toRemote.preserves_perform ha hbegin hdispatch

theorem perform (h : Aloof I) {a : Action} (ha : isAside a = true) {lexeme : String} :
    Upholds I (perform a lexeme line) := (h.preserves_perform ha).upholds

end Aloof

end OnePass.Emission
