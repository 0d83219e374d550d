import OnePass.Proofs.Emission.Writes

/-!
# Code that stands is never written again

Whatever is asked of code generation, in whatever order and from whatever stack, the
program only grows: a slot is appended, or a slot that was kept empty gets its
instruction. This also holds of requests that fail halfway.

* `Write`: one change of the program. `stateAfter`: the state a step leaves, also where it fails.
* `WritesOnce`: a step that is put together from single changes.
* `writesOnce_perform`: every action is such a step.
* `images_written_once`: along any sequence of requests no slot is lost, no instruction changes,
  and a reserved slot is filled once at most.
-/

namespace OnePass.Emission

open Grammar (Action)
open Names Target

/-- The slots of a program; one that is reserved holds nothing. -/
abbrev Slots := Array (Option Instruction)

/-- **One change of the program:** a slot more, or an instruction in a slot that was reserved. -/
inductive Write (p : Slots) : Slots → Prop
  | append (content : Option Instruction) : Write p (p.push content)
  | fill {slot : Nat} (i : Instruction) (reserved : p[slot]? = some none) :
      Write p (p.setIfInBounds slot (some i))

/-- Any number of changes, one after another. -/
abbrev Writes : Slots → Slots → Prop := Relation.ReflTransGen Write

/-- A change keeps what stands. -/
theorem Write.extends {p p' : Slots} (h : Write p p') : Extends (fun _ => True) p p' := by
  cases h with
  | append content => exact .push fun _ _ => trivial
  | fill i reserved => exact .fill reserved trivial

theorem Writes.extends {p p' : Slots} (h : Writes p p') : Extends (fun _ => True) p p' := by
  induction h with
  | refl => exact .refl _ _
  | tail _ hlast ih => exact ih.trans hlast.extends

/-- **The state that a step leaves,** whether it ends or fails. -/
def stateAfter {α : Type} (x : Emit α) (g : Generator) : Generator :=
  match x g with
  | .ok _ g' => g'
  | .error _ g' => g'

theorem stateAfter_bind {α β : Type} (x : Emit α) (f : α → Emit β) (g : Generator) :
    stateAfter (x >>= f) g =
      match x g with
      | .ok a g' => stateAfter (f a) g'
      | .error _ g' => g' := by
  unfold stateAfter
  change (match EStateM.bind x f g with
    | .ok _ g' => g'
    | .error _ g' => g') = _
  unfold EStateM.bind
  cases x g <;> rfl

theorem stateAfter_onMemory {α : Type} {op : Memory → Except MemoryError (α × Memory)}
    {g : Generator} {a : α} {m : Memory} (h : op g.memory = .ok (a, m)) :
    stateAfter (onMemory op) g = { g with memory := m } := by
  unfold stateAfter onMemory
  rw [h]

/-- **A step that writes once:** it changes the program in one place at most, or is put together
from such steps. -/
inductive WritesOnce : {α : Type} → Emit α → Prop
  | write {α : Type} {x : Emit α}
      (h : ∀ g, (stateAfter x g).memory.program = g.memory.program ∨
        Write g.memory.program (stateAfter x g).memory.program) : WritesOnce x
  | bind {α β : Type} {x : Emit α} {f : α → Emit β} (hx : WritesOnce x)
      (hf : ∀ a, WritesOnce (f a)) : WritesOnce (x >>= f)

/-- **A step that writes once goes from program to program by single changes,** wherever it stops. -/
theorem WritesOnce.writes {α : Type} {x : Emit α} (h : WritesOnce x) (g : Generator) :
    Writes g.memory.program (stateAfter x g).memory.program := by
  induction h generalizing g with
  | write h =>
    rcases h g with heq | hw
    · rw [heq]
    · exact .single hw
  | @bind α β x f _ _ ihx ihf =>
    have hfirst := ihx g
    rw [stateAfter_bind]
    -- a failure of the first step is the failure of both
    unfold stateAfter at hfirst
    cases hx : x g with
    | ok a g' =>
      rw [hx] at hfirst
      exact hfirst.trans (ihf a g')
    | error e g' =>
      rw [hx] at hfirst
      exact hfirst

namespace WritesOnce

/-! ### What steps are made of -/

section Parts

variable {α : Type}

/-- A step that leaves the program alone. -/
theorem still {x : Emit α} (h : ∀ g, (stateAfter x g).memory.program = g.memory.program) :
    WritesOnce x :=
  .write fun g => .inl (h g)

theorem pure (a : α) : WritesOnce (pure a) := .still fun _ => rfl

theorem get : WritesOnce get := .still fun _ => rfl

theorem defect {e : Defect} : WritesOnce (defect e : Emit α) := .still fun _ => rfl

theorem modify {f : Generator → Generator} (h : ∀ g, (f g).memory = g.memory) :
    WritesOnce (modify f) := by
  apply WritesOnce.still
  intro g
  change (f g).memory.program = _
  rw [h]

theorem modifyGet {f : Generator → α × Generator} (h : ∀ g, (f g).2.memory = g.memory) :
    WritesOnce (modifyGet f) := by
  apply WritesOnce.still
  intro g
  change (f g).2.memory.program = _
  rw [h]

theorem report {line : Nat} {fault : SemanticFault} : WritesOnce (report line fault) :=
  modify fun _ => rfl

theorem push {o : Operand} : WritesOnce (push o) := modify fun _ => rfl

theorem pop : WritesOnce pop := modifyGet Generator.memory_pop

theorem takeValue {line : Nat} : WritesOnce (takeValue line) :=
  modifyGet fun g => g.memory_takeValue line

theorem dropTemp {cell : Nat} : WritesOnce (dropTemp cell) :=
  .still fun g => program_dropTemp g cell

/-- An operation of the memory image writes what it writes where it succeeds. -/
theorem onMemory {op : Memory → Except MemoryError (α × Memory)}
    (h : ∀ m a m', op m = .ok (a, m') → m'.program = m.program ∨ Write m.program m'.program) :
    WritesOnce (onMemory op) := by
  apply WritesOnce.write
  intro g
  cases hop : op g.memory with
  | ok r =>
    rw [stateAfter_onMemory hop]
    exact h _ _ _ hop
  | error e =>
    unfold stateAfter Emission.onMemory
    rw [hop]
    exact .inl rfl

theorem appendSlot {content : Option Instruction} :
    WritesOnce (Emission.onMemory (·.appendSlot content)) := by
  apply WritesOnce.onMemory
  intro m a m' h
  rw [Memory.appendSlot_eq] at h
  split at h
  · cases h
  · cases h
    exact .inr (.append content)

theorem emitAt {i : Instruction} : WritesOnce (emitAt i) := appendSlot

theorem emit {i : Instruction} : WritesOnce (emit i) := .bind emitAt fun _ => pure ()

theorem reserve : WritesOnce (Emission.onMemory (·.reserve)) := appendSlot

theorem takeNextCell : WritesOnce (Emission.onMemory (·.takeNextCell)) := by
  apply WritesOnce.onMemory
  intro m a m' h
  rw [Memory.takeNextCell_eq] at h
  split at h
  · cases h
  · cases h
    exact .inl rfl

theorem takeCell : WritesOnce (Emission.onMemory (·.takeCell)) := by
  apply WritesOnce.onMemory
  intro m a m' h
  rw [Memory.takeCell_eq] at h
  split at h
  · cases h
    exact .inl rfl
  · rw [Memory.takeNextCell_eq] at h
    split at h
    · cases h
    · cases h
      exact .inl rfl

theorem freshTemp : WritesOnce freshTemp := by
  unfold Emission.freshTemp
  apply WritesOnce.bind
  · apply WritesOnce.onMemory
    intro m a m' h
    rw [Memory.takeTemp_eq] at h
    split at h
    · cases h
    · cases h
      exact .inl rfl
  · intro cell
    exact .bind (modify fun _ => rfl) fun _ => pure cell

/-- **Only a reserved slot is filled,** whatever number was on the stack. -/
theorem settle {slot : Option Nat} {i : Instruction} : WritesOnce (settle slot i) := by
  cases slot with
  | none => exact pure ()
  | some slot =>
    apply WritesOnce.write
    intro g
    -- the step reads the image it fills, so it is followed as a whole
    change (stateAfter (if g.memory.isReserved slot then Emission.onMemory (·.fill slot i)
      else Pure.pure ()) g).memory.program = _ ∨ Write _ (stateAfter (if g.memory.isReserved slot
      then Emission.onMemory (·.fill slot i) else Pure.pure ()) g).memory.program
    by_cases hr : g.memory.isReserved slot
    · have hslot : g.memory.program[slot]? = some none := by simpa [Memory.isReserved] using hr
      have hlt : slot < g.memory.programNext := (Array.getElem?_eq_some_iff.1 hslot).1
      rw [if_pos hr]
      have hfill : g.memory.fill slot i = .ok ((), { g.memory with
          program := g.memory.program.setIfInBounds slot (some i) }) := by
        rw [Memory.fill_eq, if_pos hlt]
      have hafter : stateAfter (Emission.onMemory (·.fill slot i)) g = _ :=
        stateAfter_onMemory hfill
      rw [hafter]
      exact .inr (.fill i hslot)
    · rw [if_neg hr]
      exact .inl rfl

theorem forM {γ : Type} {f : γ → Emit Unit} (items : List γ) (h : ∀ x, WritesOnce (f x)) :
    WritesOnce (items.forM f) := by
  induction items with
  | nil => exact pure ()
  | cons x items ih => exact .bind (h x) fun _ => ih

end Parts

/-! ### Values -/

section Values

variable {name : String} {line : Nat}

theorem bindFresh : WritesOnce (bindFresh name) := by
  unfold Emission.bindFresh
  refine .bind (modifyGet fun _ => rfl) fun row => .bind takeCell fun cell => ?_
  exact .bind (modify fun _ => rfl) fun _ => pure cell

theorem readName : WritesOnce (readName name) := by
  unfold Emission.readName
  apply WritesOnce.bind get
  intro g
  split
  · exact .bind (pure _) fun _ => push
  · exact .bind bindFresh fun _ => push

theorem assignTo : WritesOnce (assignTo name) := by
  unfold Emission.assignTo
  apply WritesOnce.bind get
  intro g
  split
  · exact .bind (pure _) fun _ => push
  · exact .bind bindFresh fun _ => push

theorem requireCell : WritesOnce (requireCell name line) := by
  unfold Emission.requireCell
  apply WritesOnce.bind get
  intro g
  split
  · exact report
  · exact pure ()

theorem element {asValue : Bool} : WritesOnce (element line asValue) := by
  unfold Emission.element
  refine .bind takeValue fun index => .bind takeValue fun base => .bind get fun g => ?_
  refine .bind freshTemp fun offset => .bind emit fun _ => ?_
  exact .bind freshTemp fun address => .bind emit fun _ => push

theorem storeItem : WritesOnce (storeItem line) :=
  .bind takeValue fun _ => .bind takeNextCell fun _ => emit

theorem bindGlobal : WritesOnce (bindGlobal name line) := by
  unfold Emission.bindGlobal
  apply WritesOnce.bind get
  intro g
  split
  · exact pure ()
  · split
    · exact report
    · exact .bind (modifyGet fun _ => rfl) fun _ => modify fun _ => rfl

theorem operate {op : Opcode} {left right : Operand} : WritesOnce (operate op left right) :=
  .bind freshTemp fun _ => .bind emit fun _ => push

theorem combine {op : Opcode} : WritesOnce (combine op line) :=
  .bind takeValue fun _ => .bind takeValue fun _ => operate

theorem relate : WritesOnce (relate line) :=
  .bind takeValue fun _ => .bind pop fun _ => .bind takeValue fun _ => operate

theorem raise : WritesOnce (raise line) := by
  unfold Emission.raise
  refine .bind takeValue fun exponent => .bind takeValue fun base => ?_
  refine .bind freshTemp fun result => .bind freshTemp fun counter => ?_
  refine .bind freshTemp fun running => .bind emit fun _ => .bind emit fun _ => ?_
  refine .bind emitAt fun check => .bind emit fun _ => .bind emit fun _ => ?_
  refine .bind emit fun _ => .bind emit fun _ => ?_
  exact .bind dropTemp fun _ => .bind dropTemp fun _ => push

theorem store : WritesOnce (store line) :=
  .bind takeValue fun _ => .bind pop fun _ => .bind get fun _ => emit

theorem printValue : WritesOnce (printValue line) := .bind takeValue fun _ => emit

end Values

/-! ### Branches and loops -/

section Jumps

variable {line : Nat}

theorem holdSlot : WritesOnce holdSlot :=
  .bind reserve fun _ => .bind push fun _ => modify fun _ => rfl

theorem heldSlot : WritesOnce heldSlot :=
  .bind (modify fun _ => rfl) fun _ => .bind pop fun _ => pure _

theorem settleCondition {distance : Nat} : WritesOnce (settleCondition distance) :=
  .bind heldSlot fun _ => .bind pop fun _ => .bind get fun _ => settle

theorem startElse : WritesOnce startElse := .bind settleCondition fun _ => holdSlot

theorem endElse : WritesOnce endElse := .bind heldSlot fun _ => .bind get fun _ => settle

theorem loopRecord : WritesOnce loopRecord := by
  unfold Emission.loopRecord
  apply WritesOnce.bind get
  intro g
  dsimp only
  split
  · exact defect
  · split
    · exact pure _
    · exact .bind (modify fun _ => rfl) fun _ => pure _
    · exact defect

theorem startLoop : WritesOnce startLoop := by
  unfold Emission.startLoop
  refine .bind get fun _ => .bind loopRecord fun _ => ?_
  exact .bind (modify fun _ => rfl) fun _ => modify fun _ => rfl

/-- The lists of pending exits are filled slot by slot. -/
theorem settleLoop {slot : Option Nat} {condition : Operand} {closed : ClosedLoop} :
    WritesOnce (settleLoop slot condition closed) := by
  unfold Emission.settleLoop
  refine .bind emit fun _ => .bind get fun _ => .bind settle fun _ => ?_
  exact .bind (forM _ fun _ => settle) fun _ => forM _ fun _ => settle

theorem endLoop : WritesOnce endLoop := by
  unfold Emission.endLoop
  refine .bind heldSlot fun _ => .bind pop fun _ => .bind loopRecord fun (row, record) => ?_
  dsimp only
  split
  · refine .bind (modify fun _ => rfl) fun _ => .bind settleLoop fun _ => ?_
    exact modify fun _ => rfl
  · exact modify fun _ => rfl

theorem leaveLoop {outside : SemanticFault} {add : LoopRecord → Nat → LoopRecord} :
    WritesOnce (leaveLoop line outside add) := by
  unfold Emission.leaveLoop
  apply WritesOnce.bind get
  intro g
  split
  · exact .bind reserve fun _ => .bind loopRecord fun _ => modify fun _ => rfl
  · exact report

end Jumps

/-! ### Functions and calls -/

section Functions

variable {name : String} {line row : Nat} {info : FunctionInfo}

theorem functionOn : WritesOnce (functionOn row) := by
  unfold Emission.functionOn
  apply WritesOnce.bind get
  intro g
  dsimp only
  split
  · exact pure _
  · exact defect

theorem startFunction : WritesOnce (startFunction name) := by
  unfold Emission.startFunction
  refine .bind reserve fun _ => .bind takeCell fun _ => .bind takeCell fun _ => ?_
  refine .bind (modifyGet fun _ => rfl) fun _ => .bind get fun _ => ?_
  exact .bind (modify fun _ => rfl) fun _ => modify fun _ => rfl

theorem addParameter : WritesOnce (addParameter name) :=
  .bind bindFresh fun _ => modify fun _ => rfl

theorem giveMeaning {change : Meaning → Except MeaningError Meaning} :
    WritesOnce (giveMeaning row change) := by
  unfold Emission.giveMeaning
  apply WritesOnce.bind get
  intro g
  split
  · exact pure ()
  · split
    · exact modify fun _ => rfl
    · exact defect

theorem publish : WritesOnce publish := by
  unfold Emission.publish
  apply WritesOnce.bind get
  intro g
  split
  · exact pure ()
  · split
    · exact pure ()
    · exact .bind (modify fun _ => rfl) fun _ => giveMeaning

theorem returningFrom : WritesOnce returningFrom := by
  unfold Emission.returningFrom
  apply WritesOnce.bind get
  intro g
  split
  · exact pure none
  · split
    · exact .bind (modify fun _ => rfl) fun _ => pure _
    · exact .bind (pure _) fun _ => pure _

theorem emitReturn {value : Operand} : WritesOnce (emitReturn info value) :=
  .bind emit fun _ => emit

theorem returnWith : WritesOnce (returnWith line) := by
  unfold Emission.returnWith
  refine .bind takeValue fun value => .bind returningFrom fun row? => ?_
  split
  · exact pure ()
  · exact .bind functionOn fun _ => .bind emitReturn fun _ => modify fun _ => rfl

theorem returnNothing : WritesOnce returnNothing := by
  unfold Emission.returnNothing
  apply WritesOnce.bind returningFrom
  intro row?
  split
  · exact pure ()
  · exact .bind functionOn fun _ => emit

theorem endFunction : WritesOnce endFunction := by
  unfold Emission.endFunction
  refine .bind publish fun _ => .bind get fun g => ?_
  split
  · exact pure ()
  · rename_i d rest _
    have hclose : WritesOnce (do
        Emission.settle (some d.aroundSlot) (.jump (← MonadState.get).programNext)
        MonadState.modifyGet fun g : Generator => ((), g.leaveScope)
        MonadState.modifyGet fun g : Generator => ((), { g with lastDefined := some d.row })) := by
      refine .bind get fun _ => .bind settle fun _ => ?_
      exact .bind (modify fun _ => rfl) fun _ => modify fun _ => rfl
    refine .bind (modify fun _ => rfl) fun _ => ?_
    split
    · exact .bind functionOn fun _ => .bind emitReturn fun _ => hclose
    · exact hclose

theorem retireRivals : WritesOnce (retireRivals line) := by
  unfold Emission.retireRivals
  apply WritesOnce.bind get
  intro g
  split
  · exact pure ()
  · refine .bind (modify fun _ => rfl) fun _ => forM _ fun other => .bind report fun _ => ?_
    -- cells are given back; the program is another zone
    apply WritesOnce.still
    intro g'
    exact Memory.program_freeCells _ _

theorem startCall : WritesOnce (startCall name) := .bind push fun _ => modify fun _ => rfl

theorem countArgument : WritesOnce countArgument := by
  unfold Emission.countArgument
  refine .bind (modifyGet fun g => ?_) fun _ => push
  split <;> rfl

theorem takeValues (count : Nat) : WritesOnce (takeValues line count) := by
  induction count with
  | zero => exact pure []
  | succ count ih =>
    unfold Emission.takeValues
    exact .bind takeValue fun _ => .bind ih fun _ => pure _

theorem jumpInto : WritesOnce (jumpInto info) :=
  .bind get fun _ => .bind emit fun _ => emit

theorem callFunction {arguments : List Operand} : WritesOnce (callFunction row info arguments) := by
  unfold Emission.callFunction
  refine .bind (forM _ fun _ => emit) fun _ => .bind jumpInto fun _ => ?_
  refine .bind freshTemp fun _ => .bind emit fun _ => .bind get fun g => ?_
  dsimp only
  split
  · exact .bind (modify fun _ => rfl) fun _ => push
  · exact push

theorem resolveCall : WritesOnce (resolveCall line) := by
  unfold Emission.resolveCall
  refine .bind pop fun counter => .bind get fun _ => .bind (takeValues _) fun _ => ?_
  refine .bind get fun _ => .bind (modify fun _ => rfl) fun _ => .bind get fun _ => ?_
  dsimp only
  split
  · exact callFunction
  · exact .bind report fun _ => push

theorem dropResult : WritesOnce dropResult := by
  unfold Emission.dropResult
  refine .bind pop fun result => .bind get fun g => ?_
  split
  · split
    · exact .bind (modify fun _ => rfl) fun _ => dropTemp
    · exact pure ()
  · exact pure ()

/-- **So does the end of a program.** -/
theorem callMain : WritesOnce (callMain line) := by
  unfold Emission.callMain
  apply WritesOnce.bind get
  intro g
  split
  · exact .bind functionOn fun _ => jumpInto
  · exact report

end Functions

end WritesOnce

/-- **Every action writes once,** from every state and for every lexeme. -/
theorem writesOnce_perform (a : Action) (lexeme : String) (line : Nat) :
    WritesOnce (perform a lexeme line) := by
  unfold perform
  cases a with
  | pushId => exact .readName
  | pushNumber => exact .push
  | pushTarget => exact .assignTo
  | checkDefined => exact .requireCell
  | elementAddress | elementValue => exact .element
  | listBegin => exact .bind .get fun _ => .push
  | listItem => exact .storeItem
  | add | sub | mult => exact .combine
  | power => exact .raise
  | markEq | markLt => exact .push
  | compare => exact .relate
  | assign => exact .store
  | print => exact .printValue
  | global => exact .bindGlobal
  | breakLoop | continueLoop => exact .leaveLoop
  | save => exact .holdSlot
  | falseJump => exact .settleCondition
  | falseJumpSave => exact .startElse
  | jump => exact .endElse
  | loopBegin => exact .startLoop
  | loopEnd => exact .endLoop
  | beginCall => exact .startCall
  | takeArgument => exact .countArgument
  | dispatch => exact .resolveCall
  | discardResult => exact .dropResult
  | enterFunction => exact .startFunction
  | param => exact .addParameter
  | paramsDone => exact .publish
  | returnValue => exact .returnWith
  | returnVoid => exact .returnNothing
  | exitFunction => exact .endFunction
  | checkOverload => exact .retireRivals

/-! ### Sequences of requests -/

/-- A request to generate code: an action, with the text and the line of the token before it. -/
structure Request where
  action : Action
  lexeme : String
  line : Nat

/-- What a request asks for. -/
def Request.step (r : Request) : Emit Unit := perform r.action r.lexeme r.line

/-- **The programs along a list of steps:** the first, and the one that each step leaves. A step that
fails is followed by the next one all the same. -/
def images (g : Generator) : List (Emit Unit) → List Slots
  | [] => [g.memory.program]
  | x :: rest => g.memory.program :: images (stateAfter x g) rest

/-- The reserved slots of a program that a later one has filled. -/
def filledBetween (p p' : Slots) : List Nat :=
  (List.range p.size).filter fun s => p[s]? == some none && (p'[s]?.join).isSome

/-- The slots that are filled along a list of programs, as often as they are. -/
def fillings : List Slots → List Nat
  | p :: p' :: rest => filledBetween p p' ++ fillings (p' :: rest)
  | _ => []

theorem mem_filledBetween {p p' : Slots} {s : Nat} :
    s ∈ filledBetween p p' ↔ p[s]? = some none ∧ ∃ i, p'[s]? = some (some i) := by
  unfold filledBetween
  rw [List.mem_filter, List.mem_range, Bool.and_eq_true, beq_iff_eq, Option.isSome_iff_exists]
  constructor
  · rintro ⟨-, hempty, i, hi⟩
    exact ⟨hempty, i, Option.join_eq_some_iff.1 hi⟩
  · rintro ⟨hempty, i, hi⟩
    exact ⟨(Array.getElem?_eq_some_iff.1 hempty).1, hempty, i, Option.join_eq_some_iff.2 hi⟩

/-- What steps that write once leave is reached from where they start. -/
theorem writes_images {g : Generator} {steps : List (Emit Unit)} (h : ∀ x ∈ steps, WritesOnce x) :
    ∀ p ∈ images g steps, Writes g.memory.program p := by
  induction steps generalizing g with
  | nil =>
    intro p hp
    rw [images, List.mem_singleton] at hp
    rw [hp]
  | cons x steps ih =>
    intro p hp
    rw [List.forall_mem_cons] at h
    rw [images, List.mem_cons] at hp
    rcases hp with rfl | hp
    · exact .refl
    · exact (h.1.writes g).trans (ih h.2 p hp)

/-- **Every program along such steps is reached from every earlier one.** -/
theorem pairwise_images {g : Generator} {steps : List (Emit Unit)}
    (h : ∀ x ∈ steps, WritesOnce x) : (images g steps).Pairwise Writes := by
  induction steps generalizing g with
  | nil => exact List.pairwise_singleton _ _
  | cons x steps ih =>
    rw [List.forall_mem_cons] at h
    rw [images, List.pairwise_cons]
    refine ⟨fun p hp => ?_, ih h.2⟩
    exact (h.1.writes g).trans (writes_images h.2 p hp)

/-- What is filled along a list of programs was empty in the first or not there yet. -/
theorem not_mem_fillings {p : Slots} {programs : List Slots} (h : (p :: programs).Pairwise Writes)
    {s : Nat} {i : Instruction} (hs : p[s]? = some (some i)) : s ∉ fillings (p :: programs) := by
  induction programs generalizing p with
  | nil => exact List.not_mem_nil
  | cons p' programs ih =>
    rw [List.pairwise_cons] at h
    have hkept : p'[s]? = some (some i) := (h.1 p' List.mem_cons_self).extends.kept s i hs
    rw [fillings, List.mem_append, not_or]
    refine ⟨fun hmem => ?_, ih h.2 hkept⟩
    have hempty := (mem_filledBetween.1 hmem).1
    rw [hs] at hempty
    cases hempty

theorem nodup_fillings {programs : List Slots} (h : programs.Pairwise Writes) :
    (fillings programs).Nodup := by
  induction programs with
  | nil => exact List.nodup_nil
  | cons p programs ih =>
    cases programs with
    | nil => exact List.nodup_nil
    | cons p' programs =>
      have hrest := (List.pairwise_cons.1 h).2
      rw [fillings, List.nodup_append]
      refine ⟨List.nodup_range.filter _, ih hrest, fun s hs s' hs' heq => ?_⟩
      -- what the first step has filled stands from there on
      obtain ⟨-, i, hi⟩ := mem_filledBetween.1 hs
      exact not_mem_fillings hrest hi (heq ▸ hs')

/-- **Emitted code is written once.** Under every configuration, along every list of requests with
the end of the program behind them, failing ones included: each program comes from every earlier
one by single changes, so it has no fewer slots and the same instructions in those that were
filled; and no reserved slot is filled twice. -/
theorem images_written_once (c : Config) (requests : List Request) (line : Nat) :
    let programs := images (.ofConfig c) (requests.map Request.step ++ [callMain line])
    (programs.Pairwise fun p p' => Writes p p' ∧ p.size ≤ p'.size ∧
      ∀ (s : Nat) (i : Instruction), p[s]? = some (some i) → p'[s]? = some (some i)) ∧
    (fillings programs).Nodup := by
  intro programs
  have hsteps : ∀ x ∈ requests.map Request.step ++ [callMain line], WritesOnce x := by
    intro x hx
    rw [List.mem_append, List.mem_map, List.mem_singleton] at hx
    rcases hx with ⟨r, -, rfl⟩ | rfl
    · exact writesOnce_perform r.action r.lexeme r.line
    · exact .callMain
  have hpairs : programs.Pairwise Writes := pairwise_images hsteps
  refine ⟨hpairs.imp fun {p p'} h => ?_, nodup_fillings hpairs⟩
  exact ⟨h, h.extends.size, h.extends.kept⟩

/-- A number that was left on the stack is no reserved slot: the instruction there stays. -/
example : images (.ofConfig .standard) ([⟨.print, "", 1⟩, ⟨.pushNumber, "0", 1⟩, ⟨.jump, "", 1⟩,
      ⟨.save, "", 1⟩, ⟨.jump, "", 1⟩].map Request.step) =
    [#[], #[some (.print (.immediate 0))], #[some (.print (.immediate 0))],
      #[some (.print (.immediate 0))], #[some (.print (.immediate 0)), none],
      #[some (.print (.immediate 0)), some (.jump 2)]] := by
  decide +kernel

end OnePass.Emission
