import OnePass.Proofs.Emission.Temporaries

/-!
# What actions write into the program

Code that stands stays as it is: slots are appended, and only reserved ones are filled.
What an action adds writes variable cells, or the temporaries that the action takes.

* `Instruction.WritesTo`: the cell that an instruction writes directly.
* `Extends`: a program with more in it. `Builds`: a step that extends the program.
* `Sound.ends_writes`: what each action adds.
-/

namespace OnePass.Target.Instruction

/-- The operand that is written. Jumps and output write none. -/
def target? (i : Instruction) : Option Operand :=
  match i.opcode with
  | .jump | .jumpFalse | .print => none
  | .assign => i.second
  | _ => i.third

/-- **The instruction writes a cell,** not by way of a pointer. -/
def WritesTo (i : Instruction) (cell : Nat) : Prop :=
  ∃ o, i.target? = some o ∧ o.mode = .direct ∧ o.value = cell

variable {cell : Nat}

theorem writesTo_assign {source target : Operand} :
    (assign source target).WritesTo cell ↔ target.mode = .direct ∧ target.value = cell := by
  simp [WritesTo, target?, assign]

theorem writesTo_binary {op : Opcode} {left right target : Operand}
    (hop : op = .add ∨ op = .sub ∨ op = .mult ∨ op = .eq ∨ op = .lt) :
    (binary op left right target).WritesTo cell ↔ target.mode = .direct ∧ target.value = cell := by
  rcases hop with rfl | rfl | rfl | rfl | rfl <;> simp [WritesTo, target?, binary]

theorem not_writesTo {i : Instruction} (h : i.target? = none) : ¬ i.WritesTo cell := by
  rintro ⟨o, ho, -⟩
  rw [h] at ho
  cases ho

end OnePass.Target.Instruction

namespace OnePass.Emission

open Grammar (Action Item)
open Names Target

/-- **A program with more in it:** no slot is lost, what stands stays, and what is new is allowed. -/
structure Extends (allowed : Instruction → Prop) (p p' : Array (Option Instruction)) : Prop where
  size : p.size ≤ p'.size
  kept : ∀ (s : Nat) (i : Instruction), p[s]? = some (some i) → p'[s]? = some (some i)
  added : ∀ (s : Nat) (i : Instruction), p'[s]? = some (some i) → p[s]? = some (some i) ∨ allowed i

namespace Extends

variable {allowed allowed' : Instruction → Prop} {p p' p'' : Array (Option Instruction)}
  {i : Instruction}

theorem refl (allowed : Instruction → Prop) (p : Array (Option Instruction)) : Extends allowed p p :=
  ⟨Nat.le_refl _, fun _ _ h => h, fun _ _ h => .inl h⟩

theorem trans (h : Extends allowed p p') (h' : Extends allowed p' p'') : Extends allowed p p'' :=
  ⟨Nat.le_trans h.size h'.size, fun s i hi => h'.kept s i (h.kept s i hi), fun s i hi =>
    (h'.added s i hi).elim (h.added s i) .inr⟩

theorem mono (h : Extends allowed p p') (ha : ∀ i, allowed i → allowed' i) :
    Extends allowed' p p' :=
  ⟨h.size, h.kept, fun s i hi => (h.added s i hi).imp_right (ha i)⟩

/-- There is one more slot, which may be empty. -/
theorem push {slot : Option Instruction} (hi : ∀ i, slot = some i → allowed i) :
    Extends allowed p (p.push slot) := by
  refine ⟨by simp, fun s j hj => ?_, fun s j hj => ?_⟩
  · have := (Array.getElem?_eq_some_iff.1 hj).1
    rw [Array.getElem?_push, if_neg (Nat.ne_of_lt this)]
    exact hj
  · rw [Array.getElem?_push] at hj
    split at hj
    · exact .inr (hi j (Option.some.inj hj))
    · exact .inl hj

theorem push_some (hi : allowed i) : Extends allowed p (p.push (some i)) :=
  push fun _ hj => Option.some.inj hj ▸ hi

theorem push_none : Extends allowed p (p.push none) := push nofun

/-- Only a slot that is still empty is filled. -/
theorem fill {slot : Nat} (hs : p[slot]? = some none) (hi : allowed i) :
    Extends allowed p (p.setIfInBounds slot (some i)) := by
  refine ⟨by simp, fun s j hj => ?_, fun s j hj => ?_⟩
  · rw [Array.getElem?_setIfInBounds]
    split
    · rename_i heq
      rw [heq, hj] at hs
      cases hs
    · exact hj
  · rw [Array.getElem?_setIfInBounds] at hj
    split at hj
    · split at hj
      · cases hj
        exact .inr hi
      · cases hj
    · exact .inl hj

end Extends

/-- **An image with more in it:** the program is extended, and the temporaries are as they were. -/
structure Grows (allowed : Instruction → Prop) (m m' : Memory) : Prop where
  program : Extends allowed m.program m'.program
  temps : m'.tempNext = m.tempNext

namespace Grows

variable {allowed : Instruction → Prop} {m m' m'' : Memory}

theorem refl (allowed : Instruction → Prop) (m : Memory) : Grows allowed m m :=
  ⟨.refl _ _, rfl⟩

theorem trans (h : Grows allowed m m') (h' : Grows allowed m' m'') : Grows allowed m m'' :=
  ⟨h.program.trans h'.program, h'.temps.trans h.temps⟩

end Grows

/-- **A step that only adds** what is allowed. -/
def Builds {α : Type} (allowed : Instruction → Prop) (x : Emit α) : Prop :=
  ∀ g, Ends x g fun _ g' => Grows allowed g.memory g'.memory

section Builds

variable {α β : Type} {allowed : Instruction → Prop}

theorem builds_pure (a : α) : Builds allowed (pure a) := fun _ => (ends_pure a).2 (.refl _ _)

theorem builds_defect {e : Defect} : Builds allowed (defect e : Emit α) := fun _ => ends_defect

theorem builds_bind {x : Emit α} {f : α → Emit β} (hx : Builds allowed x)
    (hf : ∀ a, Builds allowed (f a)) : Builds allowed (x >>= f) := fun g =>
  ends_bind.2 ((hx g).mono fun a g₁ h₁ => (hf a g₁).mono fun _ _ h₂ => h₁.trans h₂)

theorem builds_get : Builds allowed get := fun _ => ends_get.2 (.refl _ _)

theorem builds_modify {f : Generator → Generator}
    (h : ∀ g, (f g).memory = g.memory) : Builds allowed (modify f) := fun g => by
  rw [ends_modify, h]
  exact .refl _ _

theorem builds_modifyGet {f : Generator → α × Generator}
    (h : ∀ g, (f g).2.memory = g.memory) : Builds allowed (modifyGet f) := fun g => by
  rw [ends_modifyGet, h]
  exact .refl _ _

theorem builds_report {line : Nat} {fault : SemanticFault} : Builds allowed (report line fault) :=
  builds_modify fun _ => rfl

theorem builds_push {o : Operand} : Builds allowed (push o) := builds_modify fun _ => rfl

theorem builds_pop : Builds allowed pop := builds_modifyGet fun g => by rw [g.memory_pop]

theorem builds_takeValue {line : Nat} : Builds allowed (takeValue line) :=
  builds_modifyGet fun g => by rw [g.memory_takeValue]

theorem builds_emit {i : Instruction} (hi : allowed i) : Builds allowed (emit i) := fun _ =>
  ends_emit.2 fun _ => ⟨.push_some hi, rfl⟩

theorem builds_reserve : Builds allowed (onMemory (·.reserve)) := fun _ =>
  ends_reserve.2 fun _ => ⟨.push_none, rfl⟩

theorem builds_takeNextCell : Builds allowed (onMemory (·.takeNextCell)) := by
  intro g
  rw [ends_onMemory]
  intro cell m hm
  rw [Memory.takeNextCell_eq] at hm
  split at hm
  · cases hm
  · cases hm
    exact ⟨.refl _ _, rfl⟩

theorem builds_takeCell : Builds allowed (onMemory (·.takeCell)) := by
  intro g
  rw [ends_onMemory]
  intro cell m hm
  rw [Memory.takeCell_eq] at hm
  split at hm
  · cases hm
    exact ⟨.refl _ _, rfl⟩
  · exact ends_onMemory.1 (builds_takeNextCell g) cell m hm

theorem builds_settle {slot : Option Nat} {i : Instruction} (hi : allowed i) :
    Builds allowed (settle slot i) := by
  cases slot with
  | none => exact builds_pure ()
  | some slot =>
    intro g
    rw [ends_settle]
    split
    · rename_i hr
      exact ⟨.fill (by simpa [Memory.isReserved] using hr) hi, rfl⟩
    · exact .refl _ _

theorem builds_forM {γ : Type} {f : γ → Emit Unit} {items : List γ}
    (h : ∀ x, Builds allowed (f x)) : Builds allowed (items.forM f) := fun g =>
  ends_forM (P := fun g' => Grows allowed g.memory g'.memory) (.refl _ _)
    fun x _ g₁ h₁ => (h x g₁).mono fun _ _ h₂ => h₁.trans h₂

end Builds

/-! ### Steps that write no cell -/

section Quiet

variable {allowed : Instruction → Prop} {name : String} {line row : Nat}

theorem builds_bindFresh : Builds allowed (bindFresh name) :=
  builds_bind (builds_modifyGet fun _ => rfl) fun _ =>
    builds_bind builds_takeCell fun _ =>
      builds_bind (builds_modify fun _ => rfl) fun _ => builds_pure _

theorem builds_readName : Builds allowed (readName name) := by
  refine builds_bind builds_get fun g => ?_
  split
  · exact builds_bind (builds_pure _) fun _ => builds_push
  · exact builds_bind builds_bindFresh fun _ => builds_push

theorem builds_assignTo : Builds allowed (assignTo name) := by
  refine builds_bind builds_get fun g => ?_
  split
  · exact builds_bind (builds_pure _) fun _ => builds_push
  · exact builds_bind builds_bindFresh fun _ => builds_push

theorem builds_requireCell : Builds allowed (requireCell name line) := by
  refine builds_bind builds_get fun g => ?_
  split
  · exact builds_report
  · exact builds_pure ()

theorem builds_bindGlobal : Builds allowed (bindGlobal name line) := by
  refine builds_bind builds_get fun g => ?_
  split
  · exact builds_pure ()
  · split
    · exact builds_report
    · exact builds_bind (builds_modifyGet fun _ => rfl) fun _ => builds_modify fun _ => rfl

theorem builds_holdSlot : Builds allowed holdSlot :=
  builds_bind builds_reserve fun _ => builds_bind builds_push fun _ => builds_modify fun _ => rfl

theorem builds_heldSlot : Builds allowed heldSlot :=
  builds_bind (builds_modify fun _ => rfl) fun _ => builds_bind builds_pop fun _ => builds_pure _

theorem builds_loopRecord : Builds allowed loopRecord := by
  refine builds_bind builds_get fun g => ?_
  dsimp only
  split
  · exact builds_defect
  · split
    · exact builds_pure _
    · exact builds_bind (builds_modify fun _ => rfl) fun _ => builds_pure _
    · exact builds_defect

theorem builds_startLoop : Builds allowed startLoop :=
  builds_bind builds_get fun _ => builds_bind builds_loopRecord fun _ =>
    builds_bind (builds_modify fun _ => rfl) fun _ => builds_modify fun _ => rfl

theorem builds_leaveLoop {outside : SemanticFault} {add : LoopRecord → Nat → LoopRecord} :
    Builds allowed (leaveLoop line outside add) := by
  refine builds_bind builds_get fun g => ?_
  split
  · exact builds_bind builds_reserve fun _ => builds_bind builds_loopRecord fun _ =>
      builds_modify fun _ => rfl
  · exact builds_report

theorem builds_startCall : Builds allowed (startCall name) :=
  builds_bind builds_push fun _ => builds_modify fun _ => rfl

theorem builds_countArgument : Builds allowed countArgument := by
  refine builds_bind (builds_modifyGet fun g => ?_) fun _ => builds_push
  split <;> rfl


theorem builds_functionOn : Builds allowed (functionOn row) := by
  refine builds_bind builds_get fun g => ?_
  dsimp only
  split
  · exact builds_pure _
  · exact builds_defect

theorem builds_startFunction : Builds allowed (startFunction name) :=
  builds_bind builds_reserve fun _ => builds_bind builds_takeCell fun _ =>
    builds_bind builds_takeCell fun _ => builds_bind (builds_modifyGet fun _ => rfl) fun _ =>
      builds_bind builds_get fun _ => builds_bind (builds_modify fun _ => rfl) fun _ =>
        builds_modify fun _ => rfl

theorem builds_addParameter : Builds allowed (addParameter name) :=
  builds_bind builds_bindFresh fun _ => builds_modify fun _ => rfl

theorem builds_giveMeaning {change : Meaning → Except MeaningError Meaning} :
    Builds allowed (giveMeaning row change) := by
  refine builds_bind builds_get fun g => ?_
  split
  · exact builds_pure ()
  · split
    · exact builds_modify fun _ => rfl
    · exact builds_defect

theorem builds_publish : Builds allowed publish := by
  refine builds_bind builds_get fun g => ?_
  split
  · exact builds_pure ()
  · split
    · exact builds_pure ()
    · exact builds_bind (builds_modify fun _ => rfl) fun _ => builds_giveMeaning

theorem builds_returningFrom : Builds allowed returningFrom := by
  refine builds_bind builds_get fun g => ?_
  split
  · exact builds_pure _
  · split
    · exact builds_bind (builds_modify fun _ => rfl) fun _ => builds_pure _
    · exact builds_bind (builds_pure _) fun _ => builds_pure _

theorem grows_freeCells (m : Memory) (cells : List Nat) :
    Grows allowed m (cells.foldl Memory.freeCell m) := by
  have hprogram := Memory.program_freeCells cells m
  exact ⟨hprogram ▸ .refl _ _, Memory.tempNext_freeCells cells m⟩

theorem builds_retireRivals : Builds allowed (retireRivals line) := by
  refine builds_bind builds_get fun g => ?_
  split
  · exact builds_pure ()
  · refine builds_bind (builds_modify fun _ => rfl) fun _ => builds_forM fun other => ?_
    exact builds_bind builds_report fun _ g => ends_modify.2 (grows_freeCells _ _)

section Jumps

variable (hjump : ∀ i : Instruction, i.target? = none → allowed i)

include hjump

theorem builds_settleCondition {distance : Nat} : Builds allowed (settleCondition distance) :=
  builds_bind builds_heldSlot fun _ => builds_bind builds_pop fun _ =>
    builds_bind builds_get fun _ => builds_settle (hjump _ rfl)

theorem builds_startElse : Builds allowed startElse :=
  builds_bind (builds_settleCondition hjump) fun _ => builds_holdSlot

theorem builds_endElse : Builds allowed endElse :=
  builds_bind builds_heldSlot fun _ => builds_bind builds_get fun _ =>
    builds_settle (hjump _ rfl)

theorem builds_settleLoop {slot : Option Nat} {condition : Operand} {closed : ClosedLoop} :
    Builds allowed (settleLoop slot condition closed) :=
  builds_bind (builds_emit (hjump _ rfl)) fun _ => builds_bind builds_get fun _ =>
    builds_bind (builds_settle (hjump _ rfl)) fun _ =>
      builds_bind (builds_forM fun _ => builds_settle (hjump _ rfl)) fun _ =>
        builds_forM fun _ => builds_settle (hjump _ rfl)

theorem builds_endLoop : Builds allowed endLoop := by
  refine builds_bind builds_heldSlot fun _ => builds_bind builds_pop fun _ =>
    builds_bind builds_loopRecord fun x => ?_
  obtain ⟨row, record⟩ := x
  dsimp only
  split
  · exact builds_bind (builds_modify fun _ => rfl) fun _ =>
      builds_bind (builds_settleLoop hjump) fun _ => builds_modify fun _ => rfl
  · exact builds_modify fun _ => rfl

theorem builds_printValue : Builds allowed (printValue line) :=
  builds_bind builds_takeValue fun _ => builds_emit (hjump _ rfl)

theorem builds_returnNothing : Builds allowed returnNothing := by
  refine builds_bind builds_returningFrom fun row? => ?_
  split
  · exact builds_pure ()
  · exact builds_bind builds_functionOn fun _ => builds_emit (hjump _ rfl)

end Jumps

end Quiet

/-! ### Steps that write cells -/

/-- **What an instruction writes is its own action's:** of the temporaries only those behind the
ones that were in use. -/
def Own (E : Setting) (m : Memory) (count : Nat) (i : Instruction) : Prop :=
  ∀ cell, i.WritesTo cell → E.config.tempsFrom ≤ cell → cell < E.config.capacity →
    ∃ k < count, cell = m.tempNext + k * m.unit

section Own

variable {E : Setting} {m : Memory} {count : Nat} {source target : Operand} {op : Opcode}

theorem own_of_target? {i : Instruction} (h : i.target? = none) : Own E m count i :=
  fun _ hw => absurd hw (Instruction.not_writesTo h)

/-- An operand that may be written: a pointer, a variable cell or a temporary just taken. -/
def Operand.Ready (E : Setting) (m : Memory) (count : Nat) (o : Operand) : Prop :=
  o.mode = .direct → ∀ cell : Nat, o.value = cell → E.config.tempsFrom ≤ cell →
    cell < E.config.capacity → ∃ k < count, cell = m.tempNext + k * m.unit

theorem own_assign (h : Operand.Ready E m count target) : Own E m count (.assign source target) := by
  intro cell hw
  obtain ⟨hm, hv⟩ := Instruction.writesTo_assign.1 hw
  exact h hm cell hv

theorem own_binary {left right : Operand}
    (hop : op = .add ∨ op = .sub ∨ op = .mult ∨ op = .eq ∨ op = .lt)
    (h : Operand.Ready E m count target) : Own E m count (.binary op left right target) := by
  intro cell hw
  obtain ⟨hm, hv⟩ := (Instruction.writesTo_binary hop).1 hw
  exact h hm cell hv

theorem ready_data {a next : Nat} (h : DataCell E.config next a) (hn : next ≤ E.config.tempsFrom) :
    Operand.Ready E m count (.direct a) := by
  intro _ cell hv hle
  have h1 := h.1
  have h2 := E.zones
  have h3 := E.small
  rw [Operand.value_direct (by omega)] at hv
  omega

theorem ready_temp {k : Nat} (hk : k < count)
    (hle : m.tempNext + k * m.unit < 2 ^ 63) :
    Operand.Ready E m count (.direct (m.tempNext + k * m.unit)) := by
  intro _ cell hv _ _
  rw [Operand.value_direct hle] at hv
  exact ⟨k, hk, by omega⟩

end Own

section Steps

variable {E : Setting} {g : Generator} {line : Nat}

/-- **The step adds only what is its own action's,** with so many temporaries to take. -/
def Adds (E : Setting) (count : Nat) (x : Emit Unit) (g : Generator) : Prop :=
  Ends x g fun _ g' => Extends (Own E g.memory count) g.memory.program g'.memory.program

theorem extends_appendAll {allowed : Instruction → Prop} {code : List Instruction}
    (h : ∀ i ∈ code, allowed i) :
    Extends allowed g.memory.program (g.appendAll code).memory.program := by
  induction code generalizing g with
  | nil => exact .refl _ _
  | cons i code ih =>
    rw [List.forall_mem_cons] at h
    exact (Extends.push_some h.1).trans (ih (g := g.append (some i)) h.2)

/-- Where the next temporaries have room, they are words. -/
theorem ready_next (hm : g.memory.Regular E.config) (count k : Nat) (hk : k < count)
    (hle : g.memory.tempNext + k * g.memory.unit + g.memory.unit ≤ g.memory.capacity) :
    Operand.Ready E g.memory count (.direct (g.memory.tempNext + k * g.memory.unit)) := by
  have h1 := hm.capacity
  have h2 := hm.unit
  have h3 := E.small
  have h4 := E.unit_pos
  exact ready_temp hk (by omega)

theorem adds_operate (hm : g.memory.Regular E.config) {op : Opcode} {left right : Operand}
    (hop : op = .add ∨ op = .sub ∨ op = .mult ∨ op = .eq ∨ op = .lt) :
    Adds E 1 (operate op left right) g := by
  simp only [Adds, operate, ends_bind, ends_freshTemp, ends_emit, ends_push]
  intro hle _
  have hready := ready_next hm 1 0 Nat.one_pos (by simpa using hle)
  rw [Nat.zero_mul, Nat.add_zero] at hready
  exact .push_some (own_binary hop hready)

/-- What a step adds depends on the memory image only. -/
theorem Adds.of_memory {count : Nat} {x : Emit Unit} {g₁ : Generator} (h : Adds E count x g₁)
    (hm : g₁.memory = g.memory) :
    Ends x g₁ fun _ g' => Extends (Own E g.memory count) g.memory.program g'.memory.program := by
  rw [← hm]
  exact h

theorem adds_combine (hm : g.memory.Regular E.config) {op : Opcode}
    (hop : op = .add ∨ op = .sub ∨ op = .mult ∨ op = .eq ∨ op = .lt) :
    Adds E 1 (combine op line) g := by
  simp only [Adds, combine, ends_bind, ends_takeValue]
  exact (adds_operate (by simpa using hm) hop).of_memory (by simp)

theorem adds_relate (hm : g.memory.Regular E.config) : Adds E 1 (relate line) g := by
  simp only [Adds, relate, ends_bind, ends_takeValue, ends_pop]
  refine (adds_operate (by simpa using hm) ?_).of_memory (by simp)
  unfold relation
  split
  · exact .inr (.inr (.inr (.inl rfl)))
  · exact .inr (.inr (.inr (.inr rfl)))

theorem adds_element (hm : g.memory.Regular E.config) {asValue : Bool} :
    Adds E 2 (element line asValue) g := by
  simp only [Adds, element, ends_bind, ends_takeValue, ends_get]
  have hm₂ : ((g.takeValue line).2.takeValue line).2.memory = g.memory := by simp
  rw [← hm₂] at hm ⊢
  generalize ((g.takeValue line).2.takeValue line).2 = g₂ at hm hm₂ ⊢
  simp only [ends_freshTemp, ends_emit, ends_push]
  intro h1 _ h2 _
  simp only [Generator.tempNext_append, Generator.tempNext_withTemp, Generator.unit_append,
    Generator.unit_withTemp, Generator.capacity_append, Generator.capacity_withTemp] at h2
  have hoffset := ready_next hm 2 0 (by omega) (by simpa using h1)
  have haddress := ready_next hm 2 1 (by omega) (by simpa using h2)
  rw [Nat.zero_mul, Nat.add_zero] at hoffset
  rw [Nat.one_mul] at haddress
  exact (Extends.push_some (own_binary (.inr (.inr (.inl rfl))) hoffset)).trans
    (.push_some (own_binary (.inl rfl) haddress))

theorem program_dropTemp (g : Generator) (cell : Nat) :
    (g.dropTemp cell).memory.program = g.memory.program := by
  unfold Generator.dropTemp Memory.dropTemp
  split <;> rfl

theorem adds_raise (hm : g.memory.Regular E.config) : Adds E 3 (raise line) g := by
  rcases h₁ : g.takeValue line with ⟨exponent, g₁⟩
  rcases h₂ : g₁.takeValue line with ⟨base, g₂⟩
  have hm₂ : g₂.memory = g.memory := by
    rw [show g₂ = (g₁.takeValue line).2 by rw [h₂], Generator.memory_takeValue,
      show g₁ = (g.takeValue line).2 by rw [h₁], Generator.memory_takeValue]
  refine ends_raise h₁ h₂ fun hle _ => ?_
  rw [← hm₂] at hm ⊢
  have hresult := ready_next hm 3 0 (by omega) (by omega)
  have hcounter := ready_next hm 3 1 (by omega) (by omega)
  have hrunning := ready_next hm 3 2 (by omega) (by omega)
  rw [Nat.zero_mul, Nat.add_zero] at hresult
  rw [Nat.one_mul] at hcounter
  rw [Nat.two_mul, ← Nat.add_assoc] at hrunning
  have hcode : ∀ i ∈ powerCode base exponent g₂.memory.tempNext g₂.withTemp.memory.tempNext
      g₂.withTemp.withTemp.memory.tempNext g₂.programNext, Own E g₂.memory 3 i := by
    simp only [powerCode, List.forall_mem_cons, List.not_mem_nil, false_implies, implies_true,
      and_true]
    exact ⟨own_assign hresult, own_assign hcounter,
      own_binary (.inr (.inr (.inr (.inr rfl)))) hrunning, own_of_target? rfl,
      own_binary (.inr (.inr (.inl rfl))) hresult, own_binary (.inl rfl) hcounter,
      own_of_target? rfl⟩
  unfold Generator.withPower
  extract_lets result counter running g'
  change Extends _ _ ((g'.dropTemp running).dropTemp counter).memory.program
  rw [program_dropTemp, program_dropTemp]
  exact extends_appendAll (g := g₂.withTemp.withTemp.withTemp) hcode

theorem adds_dropResult : Adds E 0 dropResult g := by
  simp only [Adds, dropResult, ends_bind, ends_pop, ends_get]
  split
  · split
    · simp only [ends_bind, ends_modify, ends_dropTemp]
      rw [program_dropTemp]
      exact (g.memory_pop ▸ .refl _ _)
    · exact (ends_pure ()).2 (g.memory_pop ▸ .refl _ _)
  · exact (ends_pure ()).2 (g.memory_pop ▸ .refl _ _)

theorem adds_store (hm : g.memory.Regular E.config) : Adds E 0 (store line) g := by
  simp only [Adds, store, ends_bind, ends_takeValue, ends_pop, ends_get]
  have hm₂ : (g.takeValue line).2.pop.2.memory = g.memory := by simp
  rw [← hm₂] at hm ⊢
  generalize (g.takeValue line).2.pop.2 = g₂ at hm ⊢
  rw [ends_emit]
  refine fun _ => .push_some (own_assign fun hmode cell hv hle hlt => ?_)
  -- a place in the zone of the temporaries is a pointer, which is not written itself
  unfold writtenThrough at hmode hv
  split at hmode
  · cases hmode
  · rename_i hnot
    rw [if_neg hnot] at hv
    refine absurd ⟨hmode, ?_⟩ hnot
    rw [Memory.inTempZone, hm.tempsFrom, hm.capacity, hv]
    simp only [Bool.and_eq_true, decide_eq_true_eq]
    omega

theorem adds_storeItem (hm : g.memory.Regular E.config) : Adds E 0 (storeItem line) g := by
  simp only [Adds, storeItem, ends_bind, ends_takeValue, ends_onMemory]
  have hm₂ : (g.takeValue line).2.memory = g.memory := by simp
  rw [← hm₂] at hm ⊢
  generalize (g.takeValue line).2 = g₂ at hm ⊢
  intro cell m htake
  obtain ⟨h1, h2, h3, h4⟩ := Memory.takeNextCell_spec hm E.unit_pos htake
  rw [ends_emit]
  intro _
  have hp : m.program = g₂.memory.program := by rw [h4]
  change Extends _ _ (m.program.push _)
  rw [hp]
  exact .push_some (own_assign (ready_data h1 h2.data_le))

section Functions

variable {slack bound : Nat} {extra : List Nat} {away : Option Nat} {items : List Item}

/-- The cells of a function may be written by every action. -/
theorem ready_cell (h : Sound E slack bound extra away g items) {row : Nat} {info : FunctionInfo}
    (hf : g.symbols.function? row = some info) {a : Nat} (ha : a ∈ info.cells) {m : Memory}
    {count : Nat} : Operand.Ready E m count (.direct a) :=
  ready_data ((h.fits_of_function? hf).1 a ha) h.memory.data_le

theorem adds_callFunction (h : Sound E slack bound extra away g items) {row : Nat}
    {info : FunctionInfo} {arguments : List Operand} (hf : g.symbols.function? row = some info) :
    Adds E 1 (callFunction row info arguments) g := by
  simp only [Adds, callFunction, jumpInto, ends_bind, ends_get]
  refine (ends_forM (P := fun g' => Extends (Own E g.memory 1) g.memory.program
    g'.memory.program ∧ g'.memory.tempNext = g.memory.tempNext ∧
    g'.memory.unit = g.memory.unit ∧ g'.memory.capacity = g.memory.capacity)
    ⟨.refl _ _, rfl, rfl, rfl⟩ ?_).mono ?_
  · rintro ⟨argument, cell⟩ hmem g₁ ⟨h₁, hrest⟩
    rw [ends_emit]
    have hcell : cell ∈ info.cells := List.mem_append_left _ (List.of_mem_zip hmem).2
    exact fun _ => ⟨h₁.trans (.push_some (own_assign (ready_cell h hf hcell))), hrest⟩
  rintro _ g₁ ⟨h₁, hnext, hunit, hcapacity⟩
  simp only [ends_emit, ends_freshTemp]
  intro _ _ hle _
  simp only [Generator.tempNext_append, Generator.unit_append, Generator.capacity_append, hnext,
    hunit, hcapacity] at hle
  have hready := ready_next h.memory 1 0 Nat.one_pos (by simpa using hle)
  rw [Nat.zero_mul, Nat.add_zero, ← hnext] at hready
  have hreturn : info.returnCell ∈ info.cells := by simp [FunctionInfo.cells]
  have hdone : ∀ back : Operand, Extends (Own E g.memory 1) g.memory.program
      (((g₁.memory.program.push (some (.assign back (.direct info.returnCell)))).push
        (some (.jump info.start))).push
          (some (.assign (.direct info.result) (.direct g₁.memory.tempNext)))) := fun back =>
    ((h₁.trans (.push_some (own_assign (ready_cell h hf hreturn)))).trans
      (.push_some (own_of_target? rfl))).trans (.push_some (own_assign hready))
  split
  · simp only [ends_bind, ends_modify, ends_push]
    exact hdone _
  · simp only [ends_push]
    exact hdone _

theorem adds_resolveCall (h : Sound E slack bound extra away g (.call :: items)) :
    Adds E (temps .dispatch g) (resolveCall line) g := by
  obtain ⟨held, loops, record, h1, h2⟩ := h.layers
  obtain ⟨values, st, hst, -, -, h1⟩ := h1.of_call
  have hcount := argumentCount_eq hst
  have hcallee : g.callee? = g.symbols.callee? g.symbols.currentScope (g.pendingCalls.headD "")
      values.length := by
    rw [Generator.callee?, hcount]
    rfl
  rw [Generator.argumentCount, Generator.pop_eq hst] at hcount
  simp only [Adds, resolveCall, ends_bind, ends_pop, ends_get, ends_modify, Generator.pop_eq hst]
  dsimp only at hcount
  rw [hcount]
  refine (ends_takeValues rfl).mono ?_
  rintro arguments g₁ ⟨-, voids, errors, rfl⟩
  dsimp only
  rw [← hcallee]
  cases hc : g.callee? with
  | some callee =>
    obtain ⟨row, info⟩ := callee
    have h' : Sound E slack bound extra away { g with
        stack := st
        voidResults := voids
        errors := errors
        pendingCalls := g.pendingCalls.tail } items :=
      { h with layers := ⟨held, loops, record, h1, h2⟩ }
    have htemps : temps .dispatch g = 1 := if_pos (by rw [hc]; rfl)
    rw [htemps]
    refine (adds_callFunction h' ?_).of_memory rfl
    exact (function?_of_callee? (hcallee ▸ hc)).1
  | none =>
    simp only [ends_bind, ends_report, ends_push]
    exact .refl _ _

theorem adds_emitReturn (h : Sound E slack bound extra away g items) {row : Nat}
    {info : FunctionInfo} {value : Operand} (hf : g.symbols.function? row = some info) :
    Adds E 0 (emitReturn info value) g := by
  simp only [Adds, emitReturn, ends_bind, ends_emit]
  intro _ _
  exact (Extends.push_some (own_assign (ready_cell h hf
    (show info.result ∈ info.cells by simp [FunctionInfo.cells])))).trans
      (.push_some (own_of_target? rfl))

theorem adds_returnWith (h : Sound E slack bound extra away g (.value :: items)) :
    Adds E 0 (returnWith line) g := by
  simp only [Adds, returnWith, ends_bind, ends_takeValue]
  obtain ⟨-, hmem, h⟩ := h.takeValue line
  rw [← hmem]
  refine h.ends_returningFrom.mono ?_
  rintro row? g₂ ⟨-, hmem', h⟩
  rw [← hmem']
  cases row? with
  | none => exact (ends_pure ()).2 (.refl _ _)
  | some row =>
    simp only [ends_bind]
    refine ends_functionOn.mono ?_
    rintro info g₃ ⟨rfl, hf⟩
    refine (adds_emitReturn h hf).mono fun _ g₄ h₄ => ?_
    rw [ends_modify]
    exact h₄

theorem adds_endFunction (h : Sound E slack bound extra away g (.body :: items)) :
    Adds E 0 endFunction g := by
  obtain ⟨held, loops, record, h1, h2⟩ := h.layers
  obtain ⟨d, defs, outer, held, hds, rfl, hd, -, -, -, h1⟩ := h1.of_body
  simp only [Adds, endFunction, publish, ends_bind, ends_get, hds, hd, ends_pure, ends_modify]
  have hclose : ∀ g₁ : Generator, Extends (Own E g.memory 0) g.memory.program g₁.memory.program →
      Ends (settle (some d.aroundSlot) (.jump g₁.programNext)) g₁ fun _ g₂ =>
        Extends (Own E g.memory 0) g.memory.program g₂.memory.program := fun g₁ h₁ =>
    (builds_settle (own_of_target? rfl) g₁).mono fun _ _ h₂ => h₁.trans h₂.program
  split
  · simp only [ends_bind, ends_get, ends_modify]
    refine ends_functionOn.mono ?_
    rintro info g₁ ⟨rfl, hf⟩
    simp only [emitReturn, ends_bind, ends_emit]
    intro _ _
    refine hclose _ ((Extends.push_some (own_assign (ready_cell h hf
      (show info.result ∈ info.cells by simp [FunctionInfo.cells])))).trans
        (.push_some (own_of_target? rfl)))
  · simp only [ends_bind, ends_get, ends_modify]
    exact hclose _ (.refl _ _)

end Functions

/-- **What an action adds to the program** writes variable cells and the temporaries it takes, and
overwrites nothing. -/
theorem Sound.ends_writes {bound : Nat} {a : Action} {rest : List Item} {lexeme : String}
    (h : Sound E 0 bound [] none g (a.takes ++ rest)) :
    Ends (perform a lexeme line) g fun _ g' =>
      Extends (Own E g.memory (temps a g)) g.memory.program g'.memory.program := by
  have hbuilds : ∀ {x : Emit Unit}, Builds (Own E g.memory 0) x → Adds E 0 x g := fun hx =>
    (hx g).mono fun _ _ h' => h'.program
  cases a with
  | pushId => exact hbuilds builds_readName
  | pushNumber => exact hbuilds builds_push
  | pushTarget => exact hbuilds builds_assignTo
  | checkDefined => exact hbuilds builds_requireCell
  | elementAddress => exact adds_element h.memory
  | elementValue => exact adds_element h.memory
  | listBegin => exact hbuilds (builds_bind builds_get fun _ => builds_push)
  | listItem => exact adds_storeItem h.memory
  | add => exact adds_combine h.memory (.inl rfl)
  | sub => exact adds_combine h.memory (.inr (.inl rfl))
  | mult => exact adds_combine h.memory (.inr (.inr (.inl rfl)))
  | power => exact adds_raise h.memory
  | markEq => exact hbuilds builds_push
  | markLt => exact hbuilds builds_push
  | compare => exact adds_relate h.memory
  | assign => exact adds_store h.memory
  | print => exact hbuilds (builds_printValue (fun _ => own_of_target?))
  | global => exact hbuilds builds_bindGlobal
  | breakLoop => exact hbuilds builds_leaveLoop
  | continueLoop => exact hbuilds builds_leaveLoop
  | save => exact hbuilds builds_holdSlot
  | falseJump => exact hbuilds (builds_settleCondition (fun _ => own_of_target?))
  | falseJumpSave => exact hbuilds (builds_startElse (fun _ => own_of_target?))
  | jump => exact hbuilds (builds_endElse (fun _ => own_of_target?))
  | loopBegin => exact hbuilds builds_startLoop
  | loopEnd => exact hbuilds (builds_endLoop (fun _ => own_of_target?))
  | beginCall => exact hbuilds builds_startCall
  | takeArgument => exact hbuilds builds_countArgument
  | dispatch => exact adds_resolveCall h
  | discardResult => exact adds_dropResult
  | enterFunction => exact hbuilds builds_startFunction
  | param => exact hbuilds builds_addParameter
  | paramsDone => exact hbuilds builds_publish
  | returnValue => exact adds_returnWith h
  | returnVoid => exact hbuilds (builds_returnNothing (fun _ => own_of_target?))
  | exitFunction => exact adds_endFunction h
  | checkOverload => exact hbuilds builds_retireRivals

end Steps

end OnePass.Emission
