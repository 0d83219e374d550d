import OnePass.Proofs.Emission.Aloof
import OnePass.Proofs.Emission.Places
import OnePass.Proofs.Emission.Quiet

/-!
# What opens a scope

Scopes are numbered as they open, so the next one has the number of those there are. Two
actions open one each, and make it current. No other action does, whatever the state is.

* `Opened`: a state with so many scopes. `aloof_opened`: operands and code do not matter.
* `opened_perform`: **no other action opens a scope.**
* `ends_startLoop_opened`, `ends_startFunction_opened`: the two that do.
-/

namespace OnePass.Emission

open Grammar (Action)
open Names Target

/-- **A state in which so many scopes have been opened,** the outermost among them. -/
def Opened (n : Nat) (g : Generator) : Prop := g.symbols.scopes.all.size = n

/-- The actions that begin a function or a loop. -/
def opensScope : Action → Bool
  | .enterFunction | .loopBegin => true
  | _ => false

variable {n row line : Nat} {name : String} {g : Generator} {a : Action} {lexeme : String}

theorem aloof_opened : Aloof (Opened n) := Aloof.of_symbols (P := fun t => t.scopes.all.size = n)

section Steps

theorem opened_onMemory {α : Type} {op : Memory → Except MemoryError (α × Memory)} :
    Upholds (Opened n) (onMemory op) := fun _ h => ends_onMemory.2 fun _ _ _ => h

theorem Opened.rowFor (h : Opened n g) (name : String) (reuse : Meaning → Bool) :
    Opened n (g.rowFor name reuse).2 := by
  have hscopes : (g.rowFor name reuse).2.symbols.scopes = g.symbols.scopes :=
    SymbolTable.scopes_rowFor _ _ _ _
  rw [Opened, hscopes]
  exact h

theorem Opened.record (h : Opened n g) (token : Lexical.Token) :
    Opened n { g with symbols := g.symbols.record token } := by
  have hscopes : (g.symbols.record token).scopes = g.symbols.scopes :=
    SymbolTable.scopes_record _ _
  rw [Opened, hscopes]
  exact h

theorem opened_setMeaning {m : Meaning} : Upholds (Opened n) (modify (·.setMeaning row m)) :=
  upholds_modify fun _ h => h

theorem opened_bindFresh : Upholds (Opened n) (bindFresh name) :=
  upholds_bind (upholds_modifyGet fun _ h => h.rowFor _ _) fun _ =>
    upholds_bind opened_onMemory fun _ => upholds_bind opened_setMeaning fun _ => upholds_pure _

theorem opened_readName : Upholds (Opened n) (readName name) := by
  refine upholds_bind upholds_get fun g => ?_
  split
  · exact upholds_bind (upholds_pure _) fun _ => aloof_opened.push
  · exact upholds_bind opened_bindFresh fun _ => aloof_opened.push

theorem opened_assignTo : Upholds (Opened n) (assignTo name) := by
  refine upholds_bind upholds_get fun g => ?_
  split
  · exact upholds_bind (upholds_pure _) fun _ => aloof_opened.push
  · exact upholds_bind opened_bindFresh fun _ => aloof_opened.push

theorem opened_storeItem : Upholds (Opened n) (storeItem line) :=
  upholds_bind aloof_opened.takeValue fun _ => upholds_bind opened_onMemory fun _ =>
    aloof_opened.emit

theorem opened_bindGlobal : Upholds (Opened n) (bindGlobal name line) := by
  refine upholds_bind upholds_get fun g => ?_
  split
  · exact upholds_pure _
  · split
    · exact aloof_opened.report
    · exact upholds_bind (upholds_modifyGet fun _ h => h.rowFor _ _) fun _ => opened_setMeaning

theorem opened_addParameter : Upholds (Opened n) (addParameter name) :=
  upholds_bind opened_bindFresh fun _ => upholds_modify fun _ h => h

theorem opened_giveMeaning {change : Meaning → Except MeaningError Meaning} :
    Upholds (Opened n) (giveMeaning row change) := by
  refine upholds_bind upholds_get fun g => ?_
  split
  · exact upholds_pure _
  · split
    · exact opened_setMeaning
    · exact upholds_defect

theorem opened_publish : Upholds (Opened n) publish := by
  refine upholds_bind upholds_get fun g => ?_
  split
  · exact upholds_pure _
  · split
    · exact upholds_pure _
    · exact upholds_bind (upholds_modify fun _ h => h) fun _ => opened_giveMeaning

theorem opened_returnWith : Upholds (Opened n) (returnWith line) := by
  refine upholds_bind aloof_opened.takeValue fun _ =>
    upholds_bind aloof_opened.returningFrom fun _ => ?_
  split
  · exact upholds_pure _
  · exact upholds_bind Remote.functionOn fun _ => upholds_bind aloof_opened.emitReturn fun _ =>
      opened_setMeaning

theorem opened_retireRivals : Upholds (Opened n) (retireRivals line) := by
  refine upholds_bind upholds_get fun g => ?_
  split
  · exact upholds_pure _
  · exact upholds_bind (upholds_modify fun _ h => h) fun _ => upholds_forM fun _ =>
      upholds_bind aloof_opened.report fun _ => upholds_modify fun _ h => h

theorem opened_loopRecord : Upholds (Opened n) loopRecord := by
  refine upholds_bind upholds_get fun g => ?_
  dsimp only
  split
  · exact upholds_defect
  · split
    · exact upholds_pure _
    · exact upholds_bind opened_setMeaning fun _ => upholds_pure _
    · exact upholds_defect

theorem opened_leaveLoop {outside : SemanticFault} {add : LoopRecord → Nat → LoopRecord} :
    Upholds (Opened n) (leaveLoop line outside add) := by
  refine upholds_bind upholds_get fun g => ?_
  split
  · exact upholds_bind opened_onMemory fun _ => upholds_bind opened_loopRecord fun _ =>
      opened_setMeaning
  · exact aloof_opened.report

/-- A scope that is closed is still there. -/
theorem opened_leaveScope : Upholds (Opened n) (modify (·.leaveScope)) :=
  upholds_modify fun _ h => Scopes.size_leave.trans h

theorem opened_endLoop : Upholds (Opened n) endLoop := by
  refine upholds_bind aloof_opened.heldSlot fun _ => upholds_bind aloof_opened.pop fun _ =>
    upholds_bind opened_loopRecord fun _ => ?_
  dsimp only
  split
  · exact upholds_bind opened_setMeaning fun _ => upholds_bind aloof_opened.settleLoop fun _ =>
      opened_leaveScope
  · exact opened_leaveScope

theorem opened_endFunction : Upholds (Opened n) endFunction := by
  refine upholds_bind opened_publish fun _ => upholds_bind upholds_get fun g => ?_
  split
  · exact upholds_pure _
  · rename_i d rest _
    have hclose : Upholds (Opened n) (do
        settle (some d.aroundSlot) (.jump (← get).programNext)
        modify (·.leaveScope)
        modify ({ · with lastDefined := some d.row })) :=
      upholds_bind upholds_get fun _ => upholds_bind aloof_opened.settle fun _ =>
        upholds_bind opened_leaveScope fun _ => upholds_modify fun _ h => h
    refine upholds_bind (upholds_modify fun _ h => h) fun _ => ?_
    dsimp only
    split
    · exact upholds_bind Remote.functionOn fun _ =>
        upholds_bind aloof_opened.emitReturn fun _ => hclose
    · exact hclose

end Steps

/-- **No other action opens a scope.** -/
theorem opened_perform (ha : opensScope a = false) :
    Upholds (Opened n) (perform a lexeme line) := by
  by_cases haside : isAside a = true
  · exact aloof_opened.perform haside
  cases a with
  | pushId => exact opened_readName
  | pushTarget => exact opened_assignTo
  | listItem => exact opened_storeItem
  | global => exact opened_bindGlobal
  | param => exact opened_addParameter
  | paramsDone => exact opened_publish
  | returnValue => exact opened_returnWith
  | checkOverload => exact opened_retireRivals
  | breakLoop => exact opened_leaveLoop
  | continueLoop => exact opened_leaveLoop
  | loopEnd => exact opened_endLoop
  | exitFunction => exact opened_endFunction
  | enterFunction => cases ha
  | loopBegin => cases ha
  | _ => exact absurd rfl haside

/-- A loop opens the next scope, and is in it. -/
theorem ends_startLoop_opened (h : Opened n g) :
    Ends startLoop g fun _ g' => Opened (n + 1) g' ∧ g'.currentScope = n := by
  simp only [startLoop, ends_bind, ends_get]
  refine (opened_loopRecord g h).mono fun found g₁ h₁ => ?_
  simp only [ends_modify]
  exact ⟨Scopes.size_enter.trans (congrArg (· + 1) h₁), h₁⟩

/-- A definition opens the next scope, and is in it. -/
theorem ends_startFunction_opened (h : Opened n g) :
    Ends (startFunction name) g fun _ g' => Opened (n + 1) g' ∧ g'.currentScope = n := by
  simp only [startFunction, ends_bind]
  refine (aloof_opened.reserve g h).mono fun aroundSlot g₁ h₁ => ?_
  simp only [ends_onMemory, ends_modifyGet, ends_get, ends_modify]
  intro result m₁ _ returnCell m₂ _
  have hrow : Opened n (Generator.rowFor { g₁ with memory := m₂ } name (· = .unused)).2 :=
    Opened.rowFor (g := { g₁ with memory := m₂ }) h₁ _ _
  exact ⟨Scopes.size_enter.trans (congrArg (· + 1) hrow), hrow⟩

/-- **The actions that begin a function or a loop** open the next scope, and make it current. -/
theorem ends_perform_opened (ha : opensScope a = true) (h : Opened n g) :
    Ends (perform a lexeme line) g fun _ g' => Opened (n + 1) g' ∧ g'.currentScope = n := by
  cases a with
  | enterFunction => exact ends_startFunction_opened h
  | loopBegin => exact ends_startLoop_opened h
  | _ => cases ha

end OnePass.Emission
