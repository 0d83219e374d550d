import OnePass.Emission.Perform

/-!
# What steps of generation end in

Facts about a step are stated for the states it can end in. A step that fails ends in
none. Steps in a row are followed one by one.

* `Ends`: all results of a step have a property.
* `ends_bind` and the others: what steps are made of.
* `ends_emitAt`, `ends_freshTemp`, …: the operations of the memory image.
-/

namespace OnePass.Emission

open Names Target

/-- **All results of a step have a property.** -/
def Ends {α : Type} (x : Emit α) (g : Generator) (Q : α → Generator → Prop) : Prop :=
  ∀ a g', x g = .ok a g' → Q a g'

variable {α β : Type} {g g' : Generator} {Q : α → Generator → Prop}

theorem Ends.mono {x : Emit α} {P : α → Generator → Prop} (h : Ends x g P)
    (hPQ : ∀ a g', P a g' → Q a g') : Ends x g Q :=
  fun a g' hx => hPQ a g' (h a g' hx)

theorem Ends.and {x : Emit α} {P : α → Generator → Prop} (h : Ends x g P) (h' : Ends x g Q) :
    Ends x g fun a g₁ => P a g₁ ∧ Q a g₁ :=
  fun a g₁ hx => ⟨h a g₁ hx, h' a g₁ hx⟩

@[simp] theorem ends_pure (a : α) : Ends (pure a) g Q ↔ Q a g :=
  ⟨fun h => h a g rfl, fun h a' g' hx => by cases hx; exact h⟩

@[simp] theorem ends_bind {x : Emit α} {f : α → Emit β} {R : β → Generator → Prop} :
    Ends (x >>= f) g R ↔ Ends x g fun a g₁ => Ends (f a) g₁ R := by
  constructor
  · intro h a g₁ hx b g₂ hf
    refine h b g₂ ?_
    change EStateM.bind x f g = _
    rw [EStateM.bind, hx]
    exact hf
  · intro h b g₂ hb
    change EStateM.bind x f g = _ at hb
    unfold EStateM.bind at hb
    split at hb
    · rename_i a g₁ hx
      exact h a g₁ hx b g₂ hb
    · cases hb

@[simp] theorem ends_get {Q : Generator → Generator → Prop} : Ends get g Q ↔ Q g g :=
  ⟨fun h => h g g rfl, fun h a g' hx => by cases hx; exact h⟩

@[simp] theorem ends_modifyGet {f : Generator → α × Generator} :
    Ends (modifyGet f) g Q ↔ Q (f g).1 (f g).2 :=
  ⟨fun h => h _ _ rfl, fun h a g' hx => by cases hx; exact h⟩

@[simp] theorem ends_modify {f : Generator → Generator} {Q : Unit → Generator → Prop} :
    Ends (modify f) g Q ↔ Q () (f g) :=
  ⟨fun h => h _ _ rfl, fun h a g' hx => by cases hx; exact h⟩

@[simp] theorem ends_throw {e : Failure} : Ends (throw e : Emit α) g Q :=
  fun _ _ hx => by cases hx

@[simp] theorem ends_defect {e : Defect} : Ends (defect e : Emit α) g Q := ends_throw

theorem ends_onMemory {op : Memory → Except MemoryError (α × Memory)} :
    Ends (onMemory op) g Q ↔
      ∀ a m, op g.memory = .ok (a, m) → Q a { g with memory := m } := by
  unfold Ends onMemory
  constructor
  · intro h a m hop
    refine h a _ ?_
    rw [hop]
  · intro h a g' hx
    split at hx
    · rename_i m hop
      cases hx
      exact h _ _ hop
    · cases hx

@[simp] theorem ends_discard {x : Emit α} {Q : Unit → Generator → Prop} :
    Ends (discard x) g Q ↔ Ends x g fun _ g₁ => Q () g₁ := by
  change Ends (x >>= fun _ => pure ()) g Q ↔ _
  rw [ends_bind]
  simp only [ends_pure]

@[simp] theorem ends_report {line : Nat} {fault : SemanticFault} {Q : Unit → Generator → Prop} :
    Ends (report line fault) g Q ↔ Q () (g.report line fault) :=
  ends_modify

@[simp] theorem ends_push {o : Operand} {Q : Unit → Generator → Prop} :
    Ends (push o) g Q ↔ Q () (g.push o) :=
  ends_modify

@[simp] theorem ends_pop {Q : Operand → Generator → Prop} :
    Ends pop g Q ↔ Q g.pop.1 g.pop.2 :=
  ends_modifyGet

@[simp] theorem ends_takeValue {line : Nat} {Q : Operand → Generator → Prop} :
    Ends (takeValue line) g Q ↔ Q (g.takeValue line).1 (g.takeValue line).2 :=
  ends_modifyGet

/-- The generator with one more slot. -/
def Generator.append (g : Generator) (content : Option Instruction) : Generator :=
  { g with memory := { g.memory with program := g.memory.program.push content } }

section Append

variable (g : Generator) (content : Option Instruction)

@[simp] theorem Generator.programNext_append : (g.append content).programNext = g.programNext + 1 :=
  Array.size_push _

@[simp] theorem Generator.programSize_append :
    (g.append content).memory.programSize = g.memory.programSize := rfl

@[simp] theorem Generator.dataNext_append :
    (g.append content).memory.dataNext = g.memory.dataNext := rfl

@[simp] theorem Generator.tempNext_append :
    (g.append content).memory.tempNext = g.memory.tempNext := rfl

@[simp] theorem Generator.unit_append : (g.append content).memory.unit = g.memory.unit := rfl

@[simp] theorem Generator.capacity_append :
    (g.append content).memory.capacity = g.memory.capacity := rfl

end Append

theorem ends_appendSlot {content : Option Instruction} {Q : Nat → Generator → Prop} :
    Ends (onMemory (·.appendSlot content)) g Q ↔
      (g.programNext < g.memory.programSize → Q g.programNext (g.append content)) := by
  rw [ends_onMemory]
  rw [Memory.appendSlot_eq]
  constructor
  · intro h hlt
    exact h _ _ (if_neg (Nat.not_le.2 hlt))
  · intro h a m hop
    split at hop
    · cases hop
    · cases hop
      exact h (Nat.not_le.1 ‹_›)

theorem ends_emitAt {i : Instruction} {Q : Nat → Generator → Prop} :
    Ends (emitAt i) g Q ↔
      (g.programNext < g.memory.programSize → Q g.programNext (g.append (some i))) :=
  ends_appendSlot

theorem ends_emit {i : Instruction} {Q : Unit → Generator → Prop} :
    Ends (emit i) g Q ↔
      (g.programNext < g.memory.programSize → Q () (g.append (some i))) := by
  rw [emit, ends_discard, ends_emitAt]

theorem ends_reserve {Q : Nat → Generator → Prop} :
    Ends (onMemory (·.reserve)) g Q ↔
      (g.programNext < g.memory.programSize → Q g.programNext (g.append none)) :=
  ends_appendSlot

/-- The generator with one more temporary handed out. -/
def Generator.withTemp (g : Generator) : Generator :=
  { g with memory := { g.memory with tempNext := g.memory.tempNext + g.memory.unit } }.clearVoid
    g.memory.tempNext

section WithTemp

variable (g : Generator)

@[simp] theorem Generator.programNext_withTemp : g.withTemp.programNext = g.programNext := rfl

@[simp] theorem Generator.programSize_withTemp :
    g.withTemp.memory.programSize = g.memory.programSize := rfl

@[simp] theorem Generator.dataNext_withTemp :
    g.withTemp.memory.dataNext = g.memory.dataNext := rfl

@[simp] theorem Generator.tempNext_withTemp :
    g.withTemp.memory.tempNext = g.memory.tempNext + g.memory.unit := rfl

@[simp] theorem Generator.unit_withTemp : g.withTemp.memory.unit = g.memory.unit := rfl

@[simp] theorem Generator.capacity_withTemp :
    g.withTemp.memory.capacity = g.memory.capacity := rfl

end WithTemp

theorem ends_freshTemp {Q : Nat → Generator → Prop} :
    Ends freshTemp g Q ↔ (g.memory.tempNext + g.memory.unit ≤ g.memory.capacity →
      Q g.memory.tempNext g.withTemp) := by
  simp only [freshTemp, ends_bind, ends_onMemory, ends_modify, ends_pure]
  rw [Memory.takeTemp_eq]
  constructor
  · intro h hle
    exact h _ _ (if_neg (Nat.not_lt.2 hle))
  · intro h a m hop
    split at hop
    · cases hop
    · cases hop
      exact h (Nat.not_lt.1 ‹_›)

/-- The generator with more instructions. -/
def Generator.appendAll (g : Generator) (code : List Instruction) : Generator :=
  code.foldl (fun g i => g.append (some i)) g

@[simp] theorem Generator.dataNext_appendAll (g : Generator) (code : List Instruction) :
    (g.appendAll code).memory.dataNext = g.memory.dataNext := by
  induction code generalizing g with
  | nil => rfl
  | cons i code ih => exact ih (g.append (some i))

/-- The instructions of a power from slot `first` on: the base is multiplied up in a loop. -/
def powerCode (base exponent : Operand) (result counter running first : Nat) : List Instruction :=
  [.assign (.immediate 1) (.direct result), .assign (.immediate 0) (.direct counter),
    .binary .lt (.direct counter) exponent (.direct running),
    .jumpIfFalse (.direct running) (first + 1 + 1 + 5),
    .binary .mult (.direct result) base (.direct result),
    .binary .add (.direct counter) (.immediate 1) (.direct counter), .jump (first + 1 + 1)]

/-- The generator with a temporary given back, if it is the latest. -/
def Generator.dropTemp (g : Generator) (cell : Nat) : Generator :=
  { g with memory := g.memory.dropTemp cell }

@[simp] theorem Generator.dataNext_dropTemp (g : Generator) (cell : Nat) :
    (g.dropTemp cell).memory.dataNext = g.memory.dataNext := by
  unfold Generator.dropTemp Memory.dropTemp
  split <;> rfl

@[simp] theorem ends_dropTemp {cell : Nat} {Q : Unit → Generator → Prop} :
    Ends (dropTemp cell) g Q ↔ Q () (g.dropTemp cell) :=
  ends_modify

/-- The generator with the power of two operands computed, and its scratch cells given back. -/
def Generator.withPower (g : Generator) (base exponent : Operand) : Generator :=
  let result := g.memory.tempNext
  let counter := g.withTemp.memory.tempNext
  let running := g.withTemp.withTemp.memory.tempNext
  let g' := g.withTemp.withTemp.withTemp.appendAll
    (powerCode base exponent result counter running g.programNext)
  ((g'.dropTemp running).dropTemp counter).push (.direct result)

/-- **A power** takes three temporaries and seven slots. -/
theorem ends_raise {line : Nat} {Q : Unit → Generator → Prop} {base exponent : Operand}
    {g₁ g₂ : Generator} (h₁ : g.takeValue line = (exponent, g₁))
    (h₂ : g₁.takeValue line = (base, g₂))
    (h : g₂.memory.tempNext + 3 * g₂.memory.unit ≤ g₂.memory.capacity →
      g₂.programNext + 7 ≤ g₂.memory.programSize → Q () (g₂.withPower base exponent)) :
    Ends (raise line) g Q := by
  simp only [raise, ends_bind, ends_takeValue, ends_push, ends_freshTemp, ends_emit, ends_emitAt,
    ends_dropTemp, Generator.programNext_append, Generator.programSize_append,
    Generator.programNext_withTemp, Generator.programSize_withTemp, Generator.tempNext_withTemp,
    Generator.unit_withTemp, Generator.capacity_withTemp, h₁, h₂]
  intro t1 t2 t3 l1 l2 l3 l4 l5 l6 l7
  exact h (by omega) (by omega)

/-- The generator with a slot filled. -/
def Generator.filled (g : Generator) (slot : Nat) (i : Instruction) : Generator :=
  { g with memory := { g.memory with program := g.memory.program.setIfInBounds slot (some i) } }

theorem ends_settle {slot : Nat} {i : Instruction} {Q : Unit → Generator → Prop} :
    Ends (settle (some slot) i) g Q ↔
      if g.memory.isReserved slot then Q () (g.filled slot i) else Q () g := by
  simp only [settle, ends_bind, ends_get]
  split
  · rename_i hr
    rw [ends_onMemory]
    unfold Memory.isReserved at hr
    have hlt : slot < g.memory.programNext := by
      rw [beq_iff_eq] at hr
      exact (Array.getElem?_eq_some_iff.1 hr).1
    rw [Memory.fill_eq]
    rw [if_pos hlt]
    constructor
    · intro h
      exact h _ _ rfl
    · intro h a m hop
      cases hop
      exact h
  · exact ends_pure ()

/-- A loop over a list keeps what each of its steps keeps. -/
theorem ends_forM {γ : Type} {f : γ → Emit Unit} {P : Generator → Prop} {items : List γ}
    (hg : P g) (h : ∀ x ∈ items, ∀ g, P g → Ends (f x) g fun _ g₁ => P g₁) :
    Ends (items.forM f) g fun _ g₁ => P g₁ := by
  induction items generalizing g with
  | nil =>
    change Ends (pure ()) g _
    simpa using hg
  | cons x items ih =>
    change Ends (f x >>= fun _ => items.forM f) g _
    rw [ends_bind]
    refine (h x List.mem_cons_self g hg).mono fun _ g₁ hg₁ => ?_
    exact ih hg₁ fun y hy => h y (List.mem_cons_of_mem _ hy)

theorem program_appendAll (g : Generator) (code : List Instruction) :
    (g.appendAll code).memory.program = g.memory.program ++ (code.map some).toArray := by
  induction code generalizing g with
  | nil => simp [Generator.appendAll]
  | cons i code ih =>
    have hcons : g.appendAll (i :: code) = (g.append (some i)).appendAll code := rfl
    rw [hcons, ih]
    simp [Generator.append]

theorem Generator.programNext_appendAll (g : Generator) (code : List Instruction) :
    (g.appendAll code).programNext = g.programNext + code.length := by
  change (g.appendAll code).memory.program.size = _
  rw [program_appendAll]
  simp [programNext, Memory.programNext]

/-- A loop that writes one instruction for each item. -/
theorem ends_forM_emit {γ : Type} {f : γ → Instruction} {l : List γ} :
    Ends (l.forM fun x => emit (f x)) g fun _ g' => g' = g.appendAll (l.map f) := by
  induction l generalizing g with
  | nil => exact (ends_pure ()).2 rfl
  | cons x l ih =>
    change Ends (emit (f x) >>= fun _ => l.forM fun x => emit (f x)) g _
    rw [ends_bind, ends_emit]
    exact fun _ => ih

theorem ends_jumpInto {info : FunctionInfo} : Ends (jumpInto info) g fun _ g' =>
    g' = (g.append (some (.assign (.immediate (g.programNext + 2))
      (.direct info.returnCell)))).append (some (.jump info.start)) := by
  simp only [jumpInto, ends_bind, ends_get, ends_emit]
  exact fun _ _ => trivial

end OnePass.Emission
