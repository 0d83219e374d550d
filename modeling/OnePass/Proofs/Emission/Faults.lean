import OnePass.Proofs.Emission.Ensures
import OnePass.Proofs.Emission.Steps

/-!
# What actions report

Errors of the program are only ever added, even by steps that fail, and each action has its own,
on the line that it is given. So an error says which action found it, and where.

* `Reports`: a step that adds only such errors. `reports_bind` and the others.
* `Blames`: the faults that an action finds. `reports_perform`: it finds no others.
* `reports_callMain`: what the end of a program finds.
* `Generator.strays`: the breaks and continues that stood in no loop.
-/

namespace OnePass.Emission

open Grammar (Action)
open Names Target

/-- **A state with more errors,** all of them such errors. -/
def Noted (faulty : SemanticError → Prop) (g g' : Generator) : Prop :=
  ∃ new : List SemanticError, g'.errors.toList = g.errors.toList ++ new ∧ ∀ e ∈ new, faulty e

section Noted

variable {faulty faulty' : SemanticError → Prop} {g g' g'' : Generator}

theorem Noted.of_eq (h : g'.errors = g.errors) : Noted faulty g g' :=
  ⟨[], by rw [h, List.append_nil], nofun⟩

theorem Noted.trans (h : Noted faulty g g') (h' : Noted faulty g' g'') : Noted faulty g g'' := by
  obtain ⟨new, heq, hnew⟩ := h
  obtain ⟨new', heq', hnew'⟩ := h'
  refine ⟨new ++ new', by rw [heq', heq, List.append_assoc], fun e he => ?_⟩
  rcases List.mem_append.1 he with he | he
  · exact hnew e he
  · exact hnew' e he

theorem noted_report {line : Nat} {fault : SemanticFault} (h : faulty ⟨line, fault⟩) :
    Noted faulty g (g.report line fault) :=
  ⟨[⟨line, fault⟩], Array.toList_push, List.forall_mem_singleton.2 h⟩

theorem Noted.mono (h : Noted faulty g g') (hf : ∀ e, faulty e → faulty' e) :
    Noted faulty' g g' := by
  obtain ⟨new, heq, hnew⟩ := h
  exact ⟨new, heq, fun e he => hf _ (hnew e he)⟩

end Noted

/-- **A step that adds only such errors,** wherever it stops. -/
def Reports (faulty : SemanticError → Prop) {α : Type} (x : Emit α) : Prop :=
  ∀ g₀, Preserves (Noted faulty g₀) x

section Reports

variable {α β : Type} {faulty : SemanticError → Prop} {line row : Nat} {name : String}

theorem Reports.ends {x : Emit α} (h : Reports faulty x) (g : Generator) :
    Ends x g fun _ g' => Noted faulty g g' := (h g g (.of_eq rfl)).ends

theorem reports_pure (a : α) : Reports faulty (pure a) := fun _ => preserves_pure a

theorem reports_defect {e : Defect} : Reports faulty (defect e : Emit α) := fun _ =>
  preserves_defect

theorem reports_bind {x : Emit α} {f : α → Emit β} (hx : Reports faulty x)
    (hf : ∀ a, Reports faulty (f a)) : Reports faulty (x >>= f) := fun g₀ =>
  preserves_bind (hx g₀) fun a => hf a g₀

theorem reports_get : Reports faulty get := fun _ => preserves_get

theorem reports_modify {f : Generator → Generator} (h : ∀ g, (f g).errors = g.errors) :
    Reports faulty (modify f) := fun _ => preserves_modify fun g hg => hg.trans (.of_eq (h g))

theorem reports_modifyGet {f : Generator → α × Generator} (h : ∀ g, (f g).2.errors = g.errors) :
    Reports faulty (modifyGet f) := fun _ =>
  preserves_modifyGet fun g hg => hg.trans (.of_eq (h g))

theorem reports_onMemory {op : Memory → Except MemoryError (α × Memory)} :
    Reports faulty (onMemory op) := fun _ _ hg =>
  ensures_onMemory hg fun _ _ _ => hg.trans (.of_eq rfl)

theorem reports_report {fault : SemanticFault} (h : faulty ⟨line, fault⟩) :
    Reports faulty (report line fault) := fun _ =>
  preserves_modify fun _ hg => hg.trans (noted_report h)

theorem reports_forM {γ : Type} {f : γ → Emit Unit} {items : List γ}
    (h : ∀ x, Reports faulty (f x)) : Reports faulty (items.forM f) := fun g₀ =>
  preserves_forM (fun x => h x g₀) items

theorem reports_push {o : Operand} : Reports faulty (push o) := reports_modify fun _ => rfl

theorem reports_pop : Reports faulty pop := reports_modifyGet fun g => by
  obtain ⟨st, hst⟩ := g.pop_frame
  rw [hst]

theorem reports_emit {i : Instruction} : Reports faulty (emit i) :=
  reports_bind reports_onMemory fun _ => reports_pure ()

theorem reports_freshTemp : Reports faulty freshTemp :=
  reports_bind reports_onMemory fun _ => reports_bind (reports_modify fun _ => rfl) fun _ =>
    reports_pure _

theorem reports_dropTemp {cell : Nat} : Reports faulty (dropTemp cell) :=
  reports_modify fun _ => rfl

theorem reports_settle {slot : Option Nat} {i : Instruction} : Reports faulty (settle slot i) := by
  cases slot with
  | none => exact reports_pure ()
  | some slot =>
    refine reports_bind reports_get fun g => ?_
    split
    · exact reports_onMemory
    · exact reports_pure ()

/-- **A value that is taken** may turn out to be void. -/
theorem reports_takeValue (h : faulty ⟨line, .voidOperand⟩) : Reports faulty (takeValue line) := by
  refine fun _ => preserves_modifyGet fun g hg => hg.trans ?_
  obtain ⟨st, hst⟩ := g.pop_frame
  have hpop : Noted faulty g g.pop.2 := .of_eq (by rw [hst])
  refine hpop.trans ?_
  change Noted faulty g.pop.2 (g.pop.2.useValue line g.pop.1)
  unfold Generator.useValue
  split
  · split
    · exact noted_report h
    · exact .of_eq rfl
  · exact .of_eq rfl

theorem reports_takeValues (h : faulty ⟨line, .voidOperand⟩) (count : Nat) :
    Reports faulty (takeValues line count) := by
  induction count with
  | zero => exact reports_pure _
  | succ count ih =>
    exact reports_bind (reports_takeValue h) fun _ => reports_bind ih fun _ => reports_pure _

end Reports

section Values

variable {faulty : SemanticError → Prop} {line row : Nat} {name : String}

theorem reports_bindFresh : Reports faulty (bindFresh name) :=
  reports_bind (reports_modifyGet fun _ => rfl) fun _ => reports_bind reports_onMemory fun _ =>
    reports_bind (reports_modify fun _ => rfl) fun _ => reports_pure _

theorem reports_readName : Reports faulty (readName name) := by
  refine reports_bind reports_get fun g => ?_
  split
  · exact reports_bind (reports_pure _) fun _ => reports_push
  · exact reports_bind reports_bindFresh fun _ => reports_push

theorem reports_assignTo : Reports faulty (assignTo name) := by
  refine reports_bind reports_get fun g => ?_
  split
  · exact reports_bind (reports_pure _) fun _ => reports_push
  · exact reports_bind reports_bindFresh fun _ => reports_push

theorem reports_requireCell (h : faulty ⟨line, .undefined name⟩) :
    Reports faulty (requireCell name line) := by
  refine reports_bind reports_get fun g => ?_
  split
  · exact reports_report h
  · exact reports_pure ()

theorem reports_bindGlobal (h : faulty ⟨line, .undefined name⟩) :
    Reports faulty (bindGlobal name line) := by
  refine reports_bind reports_get fun g => ?_
  split
  · exact reports_pure ()
  · split
    · exact reports_report h
    · exact reports_bind (reports_modifyGet fun _ => rfl) fun _ => reports_modify fun _ => rfl

theorem reports_operate {op : Opcode} {left right : Operand} :
    Reports faulty (operate op left right) :=
  reports_bind reports_freshTemp fun _ => reports_bind reports_emit fun _ => reports_push

theorem reports_combine (h : faulty ⟨line, .voidOperand⟩) {op : Opcode} :
    Reports faulty (combine op line) :=
  reports_bind (reports_takeValue h) fun _ => reports_bind (reports_takeValue h) fun _ =>
    reports_operate

theorem reports_relate (h : faulty ⟨line, .voidOperand⟩) : Reports faulty (relate line) :=
  reports_bind (reports_takeValue h) fun _ => reports_bind reports_pop fun _ =>
    reports_bind (reports_takeValue h) fun _ => reports_operate

theorem reports_raise (h : faulty ⟨line, .voidOperand⟩) : Reports faulty (raise line) :=
  reports_bind (reports_takeValue h) fun _ => reports_bind (reports_takeValue h) fun _ =>
    reports_bind reports_freshTemp fun _ => reports_bind reports_freshTemp fun _ =>
      reports_bind reports_freshTemp fun _ => reports_bind reports_emit fun _ =>
        reports_bind reports_emit fun _ => reports_bind reports_onMemory fun _ =>
          reports_bind reports_emit fun _ => reports_bind reports_emit fun _ =>
            reports_bind reports_emit fun _ => reports_bind reports_emit fun _ =>
              reports_bind reports_dropTemp fun _ => reports_bind reports_dropTemp fun _ =>
                reports_push

theorem reports_element (h : faulty ⟨line, .voidOperand⟩) {asValue : Bool} :
    Reports faulty (element line asValue) :=
  reports_bind (reports_takeValue h) fun _ => reports_bind (reports_takeValue h) fun _ =>
    reports_bind reports_get fun _ => reports_bind reports_freshTemp fun _ =>
      reports_bind reports_emit fun _ => reports_bind reports_freshTemp fun _ =>
        reports_bind reports_emit fun _ => reports_push

theorem reports_storeItem (h : faulty ⟨line, .voidOperand⟩) : Reports faulty (storeItem line) :=
  reports_bind (reports_takeValue h) fun _ => reports_bind reports_onMemory fun _ => reports_emit

theorem reports_store (h : faulty ⟨line, .voidOperand⟩) : Reports faulty (store line) :=
  reports_bind (reports_takeValue h) fun _ => reports_bind reports_pop fun _ =>
    reports_bind reports_get fun _ => reports_emit

theorem reports_printValue (h : faulty ⟨line, .voidOperand⟩) : Reports faulty (printValue line) :=
  reports_bind (reports_takeValue h) fun _ => reports_emit

theorem reports_countArgument : Reports faulty countArgument := by
  refine reports_bind (reports_modifyGet fun g => ?_) fun _ => reports_push
  split <;> rfl

theorem reports_callFunction {info : FunctionInfo} {arguments : List Operand} :
    Reports faulty (callFunction row info arguments) := by
  have hjump : Reports faulty (jumpInto info) :=
    reports_bind reports_get fun _ => reports_bind reports_emit fun _ => reports_emit
  refine reports_bind (reports_forM fun _ => reports_emit) fun _ => reports_bind hjump fun _ =>
    reports_bind reports_freshTemp fun _ => reports_bind reports_emit fun _ =>
      reports_bind reports_get fun g => ?_
  dsimp only
  split
  · exact reports_bind (reports_modify fun _ => rfl) fun _ => reports_push
  · exact reports_push

/-- **A call** may find no function of its name, or none with so many parameters. -/
theorem reports_resolveCall (hv : faulty ⟨line, .voidOperand⟩)
    (hu : ∀ f, faulty ⟨line, .undefined f⟩) (hc : ∀ f, faulty ⟨line, .argumentCount f⟩) :
    Reports faulty (resolveCall line) := by
  refine reports_bind reports_pop fun _ => reports_bind reports_get fun _ =>
    reports_bind (reports_takeValues hv _) fun _ => reports_bind reports_get fun _ =>
      reports_bind (reports_modify fun _ => rfl) fun _ => reports_bind reports_get fun _ => ?_
  dsimp only
  split
  · exact reports_callFunction
  · refine reports_bind (reports_report ?_) fun _ => reports_push
    split
    · exact hc _
    · exact hu _

theorem reports_dropResult : Reports faulty dropResult := by
  refine reports_bind reports_pop fun _ => reports_bind reports_get fun _ => ?_
  split
  · split
    · exact reports_bind (reports_modify fun _ => rfl) fun _ => reports_dropTemp
    · exact reports_pure ()
  · exact reports_pure ()

end Values

section Control

variable {faulty : SemanticError → Prop} {line row : Nat} {name : String}

theorem reports_holdSlot : Reports faulty holdSlot :=
  reports_bind reports_onMemory fun _ => reports_bind reports_push fun _ =>
    reports_modify fun _ => rfl

theorem reports_heldSlot : Reports faulty heldSlot :=
  reports_bind (reports_modify fun _ => rfl) fun _ => reports_bind reports_pop fun _ =>
    reports_pure _

theorem reports_settleCondition {distance : Nat} : Reports faulty (settleCondition distance) :=
  reports_bind reports_heldSlot fun _ => reports_bind reports_pop fun _ =>
    reports_bind reports_get fun _ => reports_settle

theorem reports_endElse : Reports faulty endElse :=
  reports_bind reports_heldSlot fun _ => reports_bind reports_get fun _ => reports_settle

theorem reports_loopRecord : Reports faulty loopRecord := by
  refine reports_bind reports_get fun g => ?_
  dsimp only
  split
  · exact reports_defect
  · split
    · exact reports_pure _
    · exact reports_bind (reports_modify fun _ => rfl) fun _ => reports_pure _
    · exact reports_defect

theorem reports_startLoop : Reports faulty startLoop :=
  reports_bind reports_get fun _ => reports_bind reports_loopRecord fun _ =>
    reports_bind (reports_modify fun _ => rfl) fun _ => reports_modify fun _ => rfl

theorem reports_endLoop : Reports faulty endLoop := by
  have hsettle : ∀ slot condition closed, Reports faulty (settleLoop slot condition closed) :=
    fun _ _ _ => reports_bind reports_emit fun _ => reports_bind reports_get fun _ =>
      reports_bind reports_settle fun _ => reports_bind (reports_forM fun _ => reports_settle)
        fun _ => reports_forM fun _ => reports_settle
  have hleave : Reports faulty (modify (·.leaveScope)) := reports_modify fun _ => rfl
  refine reports_bind reports_heldSlot fun _ => reports_bind reports_pop fun _ =>
    reports_bind reports_loopRecord fun _ => ?_
  dsimp only
  split
  · exact reports_bind (reports_modify fun _ => rfl) fun _ => reports_bind (hsettle _ _ _)
      fun _ => hleave
  · exact hleave

/-- **A jump out of a loop** may stand in none. -/
theorem reports_leaveLoop {outside : SemanticFault} {add : LoopRecord → Nat → LoopRecord}
    (h : faulty ⟨line, outside⟩) : Reports faulty (leaveLoop line outside add) := by
  refine reports_bind reports_get fun g => ?_
  dsimp only
  split
  · exact reports_bind reports_onMemory fun _ => reports_bind reports_loopRecord fun _ =>
      reports_modify fun _ => rfl
  · exact reports_report h

theorem reports_functionOn : Reports faulty (functionOn row) := by
  refine reports_bind reports_get fun g => ?_
  dsimp only
  split
  · exact reports_pure _
  · exact reports_defect

theorem reports_startFunction : Reports faulty (startFunction name) :=
  reports_bind reports_onMemory fun _ => reports_bind reports_onMemory fun _ =>
    reports_bind reports_onMemory fun _ => reports_bind (reports_modifyGet fun _ => rfl) fun _ =>
      reports_bind reports_get fun _ => reports_bind (reports_modify fun _ => rfl) fun _ =>
        reports_modify fun _ => rfl

theorem reports_publish : Reports faulty publish := by
  have hgive : ∀ row change, Reports faulty (giveMeaning row change) := by
    intro row change
    refine reports_bind reports_get fun g => ?_
    split
    · exact reports_pure ()
    · split
      · exact reports_modify fun _ => rfl
      · exact reports_defect
  refine reports_bind reports_get fun g => ?_
  split
  · exact reports_pure ()
  · split
    · exact reports_pure ()
    · exact reports_bind (reports_modify fun _ => rfl) fun _ => hgive _ _

theorem reports_returningFrom : Reports faulty returningFrom := by
  refine reports_bind reports_get fun g => ?_
  split
  · exact reports_pure _
  · split
    · exact reports_bind (reports_modify fun _ => rfl) fun _ => reports_pure _
    · exact reports_bind (reports_pure _) fun _ => reports_pure _

theorem reports_emitReturn {info : FunctionInfo} {value : Operand} :
    Reports faulty (emitReturn info value) :=
  reports_bind reports_emit fun _ => reports_emit

theorem reports_returnWith (h : faulty ⟨line, .voidOperand⟩) :
    Reports faulty (returnWith line) := by
  refine reports_bind (reports_takeValue h) fun _ => reports_bind reports_returningFrom
    fun row => ?_
  split
  · exact reports_pure ()
  · exact reports_bind reports_functionOn fun _ => reports_bind reports_emitReturn fun _ =>
      reports_modify fun _ => rfl

theorem reports_returnNothing : Reports faulty returnNothing := by
  refine reports_bind reports_returningFrom fun row => ?_
  split
  · exact reports_pure ()
  · exact reports_bind reports_functionOn fun _ => reports_emit

theorem reports_endFunction : Reports faulty endFunction := by
  have hclose : ∀ d : Definition, Reports faulty (do
      settle (some d.aroundSlot) (.jump (← get).programNext)
      modify (·.leaveScope)
      modify ({ · with lastDefined := some d.row })) := fun d =>
    reports_bind reports_get fun _ => reports_bind reports_settle fun _ =>
      reports_bind (reports_modify fun _ => rfl) fun _ => reports_modify fun _ => rfl
  refine reports_bind reports_publish fun _ => reports_bind reports_get fun g => ?_
  split
  · exact reports_pure ()
  · refine reports_bind (reports_modify fun _ => rfl) fun _ => ?_
    split
    · exact reports_bind reports_functionOn fun _ => reports_bind reports_emitReturn fun _ =>
        hclose _
    · exact hclose _

/-- **The end of a definition** may find another of that name and number of parameters. -/
theorem reports_retireRivals (h : ∀ f, faulty ⟨line, .redefined f⟩) :
    Reports faulty (retireRivals line) := by
  refine reports_bind reports_get fun g => ?_
  dsimp only
  split
  · exact reports_pure ()
  · refine reports_bind (reports_modify fun _ => rfl) fun _ => reports_forM fun other => ?_
    exact reports_bind (reports_report (h _)) fun _ => reports_modify fun _ => rfl

end Control

/-- **The faults that an action finds,** behind this text. -/
def Blames : Action → String → SemanticFault → Prop
  | .checkDefined, lexeme, fault | .global, lexeme, fault => fault = .undefined lexeme
  | .elementAddress, _, fault | .elementValue, _, fault | .listItem, _, fault | .add, _, fault
  | .sub, _, fault | .mult, _, fault | .power, _, fault | .compare, _, fault | .assign, _, fault
  | .print, _, fault | .returnValue, _, fault => fault = .voidOperand
  | .dispatch, _, fault =>
    fault = .voidOperand ∨ (∃ f, fault = .undefined f) ∨ ∃ f, fault = .argumentCount f
  | .breakLoop, _, fault => fault = .breakOutsideLoop
  | .continueLoop, _, fault => fault = .continueOutsideLoop
  | .checkOverload, _, fault => ∃ f, fault = .redefined f
  | _, _, _ => False

/-- **An action finds no other faults** than its own, and on its own line. -/
theorem reports_perform (a : Action) (lexeme : String) (line : Nat) :
    Reports (fun e => e.line = line ∧ Blames a lexeme e.fault) (perform a lexeme line) := by
  cases a with
  | pushId => exact reports_readName
  | pushNumber => exact reports_push
  | pushTarget => exact reports_assignTo
  | checkDefined => exact reports_requireCell ⟨rfl, rfl⟩
  | elementAddress => exact reports_element ⟨rfl, rfl⟩
  | elementValue => exact reports_element ⟨rfl, rfl⟩
  | listBegin => exact reports_bind reports_get fun _ => reports_push
  | listItem => exact reports_storeItem ⟨rfl, rfl⟩
  | add => exact reports_combine ⟨rfl, rfl⟩
  | sub => exact reports_combine ⟨rfl, rfl⟩
  | mult => exact reports_combine ⟨rfl, rfl⟩
  | power => exact reports_raise ⟨rfl, rfl⟩
  | markEq => exact reports_push
  | markLt => exact reports_push
  | compare => exact reports_relate ⟨rfl, rfl⟩
  | assign => exact reports_store ⟨rfl, rfl⟩
  | print => exact reports_printValue ⟨rfl, rfl⟩
  | global => exact reports_bindGlobal ⟨rfl, rfl⟩
  | breakLoop => exact reports_leaveLoop ⟨rfl, rfl⟩
  | continueLoop => exact reports_leaveLoop ⟨rfl, rfl⟩
  | save => exact reports_holdSlot
  | falseJump => exact reports_settleCondition
  | falseJumpSave => exact reports_bind reports_settleCondition fun _ => reports_holdSlot
  | jump => exact reports_endElse
  | loopBegin => exact reports_startLoop
  | loopEnd => exact reports_endLoop
  | beginCall => exact reports_bind reports_push fun _ => reports_modify fun _ => rfl
  | takeArgument => exact reports_countArgument
  | dispatch =>
    exact reports_resolveCall ⟨rfl, .inl rfl⟩ (fun f => ⟨rfl, .inr (.inl ⟨f, rfl⟩)⟩)
      fun f => ⟨rfl, .inr (.inr ⟨f, rfl⟩)⟩
  | discardResult => exact reports_dropResult
  | enterFunction => exact reports_startFunction
  | param => exact reports_bind reports_bindFresh fun _ => reports_modify fun _ => rfl
  | paramsDone => exact reports_publish
  | returnValue => exact reports_returnWith ⟨rfl, rfl⟩
  | returnVoid => exact reports_returnNothing
  | exitFunction => exact reports_endFunction
  | checkOverload => exact reports_retireRivals fun f => ⟨rfl, f, rfl⟩

/-- **The end of a program** finds at most that there is no function to start with. -/
theorem reports_callMain (line : Nat) :
    Reports (fun e => e = ⟨line, .noMain⟩) (callMain line) := by
  refine reports_bind reports_get fun g => ?_
  split
  · exact reports_bind reports_functionOn fun info => reports_bind reports_get fun _ =>
      reports_bind reports_emit fun _ => reports_emit
  · exact reports_report rfl

/-- Whether a fault is that of a jump that leaves no loop. -/
def isStray : SemanticFault → Bool
  | .breakOutsideLoop | .continueOutsideLoop => true
  | _ => false

/-- **The jumps that left no loop,** in the order of the text. -/
def Generator.strays (g : Generator) : List SemanticFault :=
  (g.errors.toList.map (·.fault)).filter isStray

theorem strays_report {g : Generator} {line : Nat} {fault : SemanticFault}
    (h : isStray fault = true) : (g.report line fault).strays = g.strays ++ [fault] := by
  simp [Generator.strays, Generator.report, h]

/-- **Only a break or a continue is a stray one.** -/
theorem strays_perform {a : Action} (hb : a ≠ .breakLoop) (hc : a ≠ .continueLoop)
    (lexeme : String) (line : Nat) (g : Generator) :
    Ends (perform a lexeme line) g fun _ g' => g'.strays = g.strays := by
  refine ((reports_perform a lexeme line).ends g).mono ?_
  rintro _ g' ⟨new, heq, hnew⟩
  have hnone : (new.map (·.fault)).filter isStray = [] := by
    rw [List.filter_eq_nil_iff]
    intro fault hfault
    obtain ⟨e, he, rfl⟩ := List.mem_map.1 hfault
    have hblames := (hnew e he).2
    generalize e.fault = fault at hblames
    cases a with
    | breakLoop => exact absurd rfl hb
    | continueLoop => exact absurd rfl hc
    | dispatch =>
      rcases hblames with rfl | ⟨f, rfl⟩ | ⟨f, rfl⟩ <;> exact Bool.false_ne_true
    | checkOverload =>
      obtain ⟨f, rfl⟩ := hblames
      exact Bool.false_ne_true
    | checkDefined | global | elementAddress | elementValue | listItem | add | sub | mult | power
    | compare | assign | print | returnValue =>
      rw [show fault = _ from hblames]
      exact Bool.false_ne_true
    | _ => exact hblames.elim
  simp [Generator.strays, heq, hnone]

end OnePass.Emission
