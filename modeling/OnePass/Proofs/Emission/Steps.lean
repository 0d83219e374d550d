import OnePass.Proofs.Emission.Sound

/-!
# Steps that keep generation sound

What the operations on the memory image, on the operand stack and on the symbol table
make of a sound state.

* `Sound.append`, `Sound.reserve`, `Sound.filled`: slots of the program.
* `Sound.withTemp`, `Sound.withData`, `Sound.ends_takeCell`: cells.
* `Sound.pushValue`, `Sound.takeValue`, …: the stack.
-/

namespace OnePass.Emission

open Grammar (Item)
open Names Target

namespace Generator

variable {g : Generator} {o : Operand} {st : OperandStack}

theorem pop_eq (h : g.stack = o :: st) : g.pop = (o, { g with stack := st }) := by
  simp [pop, OperandStack.pop?, OperandStack.take?, OperandStack.at?, h]

theorem useValue_eq (g : Generator) (line : Nat) (o : Operand) :
    ∃ voids errors, g.useValue line o = { g with voidResults := voids, errors := errors } := by
  unfold useValue
  split
  · split
    · exact ⟨_, _, rfl⟩
    · exact ⟨g.voidResults, g.errors, rfl⟩
  · exact ⟨g.voidResults, g.errors, rfl⟩

/-- Taking changes nothing but the stack. -/
theorem pop_frame (g : Generator) : ∃ st, g.pop.2 = { g with stack := st } := by
  unfold pop
  split
  · exact ⟨_, rfl⟩
  · exact ⟨g.stack, rfl⟩

theorem takeValue_frame (g : Generator) (line : Nat) : ∃ st voids errors, (g.takeValue line).2 =
    { g with stack := st, voidResults := voids, errors := errors } := by
  obtain ⟨st, hst⟩ := g.pop_frame
  obtain ⟨voids, errors, h⟩ := g.pop.2.useValue_eq line g.pop.1
  refine ⟨st, voids, errors, ?_⟩
  rw [takeValue]
  dsimp only
  rw [h, hst]

@[simp] theorem memory_pop (g : Generator) : g.pop.2.memory = g.memory := by
  obtain ⟨st, h⟩ := g.pop_frame
  rw [h]

@[simp] theorem memory_takeValue (g : Generator) (line : Nat) :
    (g.takeValue line).2.memory = g.memory := by
  obtain ⟨st, voids, errors, h⟩ := g.takeValue_frame line
  rw [h]

theorem takeValue_eq (h : g.stack = o :: st) (line : Nat) : ∃ voids errors,
    g.takeValue line = (o, { g with stack := st, voidResults := voids, errors := errors }) := by
  obtain ⟨voids, errors, hu⟩ := useValue_eq { g with stack := st } line o
  refine ⟨voids, errors, ?_⟩
  rw [takeValue, pop_eq h]
  exact congrArg _ hu

end Generator

namespace Sound

variable {E : Setting} {slack bound : Nat} {extra : List Nat} {away : Option Nat}
  {g : Generator} {items : List Item}

theorem cell_lt (h : Sound E slack bound extra away g items) {a : Nat}
    (ha : E.Cell g.memory.dataNext a) : a < 2 ^ 63 :=
  ha.lt h.memory.data_le

/-- More slots may follow than are asked for. -/
theorem relax (h : Sound E slack bound extra away g items) {slack' : Nat} (hle : slack ≤ slack') :
    Sound E slack' bound extra away g items := by
  have hl := Nat.add_le_add_left hle g.programNext
  obtain ⟨held, loops, record, h1, h2, h3⟩ := h.layers
  exact ⟨h.memory, fun s i hi => (h.code s i hi).mono (fun _ ha => ha) hl,
    ⟨h.table.rooted, fun i m hm => (h.table.fits i m hm).mono (Nat.le_refl _) hl, h.table.functions⟩,
    h.last, held, loops, record, h1, h2.mono hl, h3⟩

section Program

variable {i : Instruction}

/-- **An instruction is appended** where one more slot was awaited. -/
theorem append (h : Sound E (slack + 1) bound extra away g items)
    (hlt : g.programNext < g.memory.programSize)
    (hi : i.Closed (E.Cell g.memory.dataNext) (g.programNext + slack + 1)) :
    Sound E slack bound extra away (g.append (some i)) items := by
  have hnext : (g.append (some i)).programNext + slack = g.programNext + (slack + 1) := by
    simp only [Generator.programNext, Memory.programNext, Generator.append, Array.size_push]
    omega
  obtain ⟨held, loops, record, h1, h2, h3, h4⟩ := h.layers
  refine ⟨{ h.memory with size := ?_ }, fun s j hj => ?_, ?_, h.last, held, loops, record, h1, ?_,
    h3, h4.push_some i⟩
  · have := h.memory.programSize
    simp only [Generator.append, Array.size_push]
    exact this ▸ hlt
  · rw [hnext]
    simp only [Generator.append, Array.getElem?_push] at hj
    split at hj
    · cases hj
      exact hi
    · exact h.code s j hj
  · rw [hnext]
    exact h.table
  · rw [hnext]
    exact h2

/-- **A slot is reserved** where one more slot was awaited. -/
theorem reserve (h : Sound E (slack + 1) bound extra away g items)
    (hlt : g.programNext < g.memory.programSize) :
    Sound E slack bound (g.programNext :: extra) away (g.append none) items := by
  have hnext : (g.append none).programNext + slack = g.programNext + (slack + 1) := by
    simp only [Generator.programNext, Memory.programNext, Generator.append, Array.size_push]
    omega
  obtain ⟨held, loops, record, h1, h2, h3, h4⟩ := h.layers
  refine ⟨{ h.memory with size := ?_ }, fun s j hj => ?_, ?_, h.last, held, loops, record, h1, ?_,
    h3, h4.push_none⟩
  · have := h.memory.programSize
    simp only [Generator.append, Array.size_push]
    exact this ▸ hlt
  · rw [hnext]
    simp only [Generator.append, Array.getElem?_push] at hj
    split at hj
    · cases hj
    · exact h.code s j hj
  · rw [hnext]
    exact h.table
  · rw [hnext]
    exact h2

/-- **A piece of code is appended** whose instructions may jump up to its end. -/
theorem appendAll {code : List Instruction} (h : Sound E (slack + code.length) bound extra away g items)
    (hroom : g.programNext + code.length ≤ g.memory.programSize)
    (hi : ∀ i ∈ code, i.Closed (E.Cell g.memory.dataNext) (g.programNext + slack + code.length)) :
    Sound E slack bound extra away (g.appendAll code) items := by
  induction code generalizing g with
  | nil => exact h
  | cons i code ih =>
    rw [List.length_cons] at h hroom hi
    rw [List.forall_mem_cons] at hi
    have h : Sound E (slack + code.length + 1) bound extra away g items := h
    have h' : Sound E (slack + code.length) bound extra away (g.append (some i)) items :=
      h.append (by omega) (hi.1.mono (fun _ ha => ha) (by omega))
    refine ih h' ?_ fun j hj => ?_
    · rw [Generator.programNext_append, Generator.programSize_append]
      omega
    · rw [Generator.dataNext_append, Generator.programNext_append]
      exact (hi.2 j hj).mono (fun _ ha => ha) (by omega)

/-- A slot in the hands of an action is still empty. -/
theorem isReserved {s : Nat} (h : Sound E slack bound (s :: extra) away g items) :
    g.memory.isReserved s = true := by
  obtain ⟨held, loops, record, -, -, -, h4⟩ := h.layers
  rw [Memory.isReserved, (h4.2 s).2 List.mem_cons_self]
  rfl

/-- **A slot in the hands of an action is filled.** -/
theorem filled {s : Nat} (h : Sound E slack bound (s :: extra) away g items)
    (hi : i.Closed (E.Cell g.memory.dataNext) (g.programNext + slack)) :
    Sound E slack bound extra away (g.filled s i) items := by
  have hnext : (g.filled s i).programNext = g.programNext := by
    simp [Generator.programNext, Memory.programNext, Generator.filled]
  obtain ⟨held, loops, record, h1, h2, h3, h4⟩ := h.layers
  refine ⟨{ h.memory with size := ?_ }, fun s' j hj => ?_, ?_, h.last, held, loops, record, h1, ?_,
    h3, h4.fill i⟩
  · simpa [Generator.filled] using h.memory.size
  · rw [hnext]
    simp only [Generator.filled, Array.getElem?_setIfInBounds] at hj
    split at hj
    · split at hj
      · cases hj
        exact hi
      · cases hj
    · exact h.code s' j hj
  · rw [hnext]
    exact h.table
  · rw [hnext]
    exact h2

/-- An instruction that jumps nowhere is closed wherever it stands, so it can be appended. -/
theorem ends_emit (h : Sound E 0 bound extra away g items)
    (hi : i.Closed (E.Cell g.memory.dataNext) (g.programNext + 1)) :
    Ends (emit i) g fun _ g' => g' = g.append (some i) ∧ Sound E 0 bound extra away g' items := by
  rw [Emission.ends_emit]
  exact fun hlt => ⟨rfl, (h.relax (Nat.zero_le 1)).append hlt hi⟩

end Program

section Cells

/-- A temporary is handed out. -/
theorem withTemp (h : Sound E slack bound extra away g items)
    (hle : g.memory.tempNext + g.memory.unit ≤ g.memory.capacity) :
    Sound E slack bound extra away g.withTemp items :=
  { h with memory := h.memory.withTemp hle }

/-- A temporary is taken back. -/
theorem dropTemp (h : Sound E slack bound extra away g items) (a : Nat) :
    Sound E slack bound extra away (g.dropTemp a) items := by
  have hdrop : ∃ n, g.memory.dropTemp a = { g.memory with tempNext := n } := by
    unfold Memory.dropTemp
    split
    · exact ⟨a, rfl⟩
    · exact ⟨g.memory.tempNext, rfl⟩
  obtain ⟨n, hn⟩ := hdrop
  have hm := h.memory.dropTemp a
  unfold Generator.dropTemp
  rw [hn] at hm ⊢
  exact { h with memory := hm }

/-- **Variable cells move on.** What is known of cells stays known. -/
theorem withData (h : Sound E slack bound extra away g items) {m : Memory}
    (hm : m.Regular E.config) (hle : g.memory.dataNext ≤ m.dataNext)
    (hp : m.program = g.memory.program) :
    Sound E slack bound extra away { g with memory := m } items := by
  have hnext : Generator.programNext { g with memory := m } = g.programNext := by
    simp [Generator.programNext, Memory.programNext, hp]
  have hcell : ∀ a, E.Cell g.memory.dataNext a → E.Cell m.dataNext a := fun a ha => ha.mono hle
  obtain ⟨held, loops, record, h1, h2, h3, h4⟩ := h.layers
  refine ⟨hm, fun s i hi => ?_, ?_, h.last, held, loops, record, ?_, ?_, h3, ?_⟩
  · rw [hnext]
    dsimp only at hi ⊢
    rw [hp] at hi
    exact (h.code s i hi).mono hcell (Nat.le_refl _)
  · rw [hnext]
    exact ⟨h.table.rooted, fun i m hm => (h.table.fits i m hm).mono hle (Nat.le_refl _),
      h.table.functions⟩
  · exact h1.mono (Nat.le_refl _) hle (fun _ _ _ h => h) fun _ h => h
  · rw [hnext]
    exact h2
  · dsimp only
    rw [hp]
    exact h4

/-- **A variable cell is handed out,** new or given back. -/
theorem ends_takeCell (h : Sound E slack bound extra away g items) :
    Ends (onMemory (·.takeCell)) g fun cell g' => DataCell E.config g'.memory.dataNext cell ∧
      (∃ m, g' = { g with memory := m }) ∧ g.memory.dataNext ≤ g'.memory.dataNext ∧
      Sound E slack bound extra away g' items := by
  rw [ends_onMemory]
  intro cell m hm
  obtain ⟨h1, h2, h3, h4⟩ := Memory.takeCell_spec h.memory E.unit_pos hm
  exact ⟨h1, ⟨m, rfl⟩, h3, h.withData h2 h3 (by rw [h4])⟩

end Cells

section Stack

variable {o : Operand}

/-- The items on the stack do not depend on errors, calls and void results. -/
theorem congr {g' : Generator} (h : Sound E slack bound extra away g items)
    (hsymbols : g'.symbols = g.symbols) (hmemory : g'.memory = g.memory)
    (hstack : g'.stack = g.stack) (hdefs : g'.definitions = g.definitions)
    (hlast : g'.lastDefined = g.lastDefined) : Sound E slack bound extra away g' items := by
  obtain ⟨symbols, memory, stack, _, _, definitions, lastDefined, _⟩ := g'
  dsimp only at hsymbols hmemory hstack hdefs hlast
  subst hsymbols hmemory hstack hdefs hlast
  exact { h with }

theorem report (h : Sound E slack bound extra away g items) (line : Nat) (fault : SemanticFault) :
    Sound E slack bound extra away (g.report line fault) items := { h with }

theorem pushValue (h : Sound E slack bound extra away g items)
    (ho : o.Reads (E.Cell g.memory.dataNext)) :
    Sound E slack bound extra away (g.push o) (.value :: items) := by
  obtain ⟨held, loops, record, h1, h2⟩ := h.layers
  exact { h with layers := ⟨held, loops, record, .value ho h1, h2⟩ }

theorem pushTarget (h : Sound E slack bound extra away g items)
    (ho : o.Writes (E.Cell g.memory.dataNext)) :
    Sound E slack bound extra away (g.push o) (.target :: items) := by
  obtain ⟨held, loops, record, h1, h2⟩ := h.layers
  exact { h with layers := ⟨held, loops, record, .target ho h1, h2⟩ }

theorem pushRelation (h : Sound E slack bound extra away g items) (ho : o.mode = .immediate) :
    Sound E slack bound extra away (g.push o) (.relation :: items) := by
  obtain ⟨held, loops, record, h1, h2⟩ := h.layers
  exact { h with layers := ⟨held, loops, record, .relation ho h1, h2⟩ }

theorem pushCondition (h : Sound E slack bound extra away g items)
    (ho : o.Reads (E.Cell g.memory.dataNext)) (hs : E.config.programSize < 2 ^ 63) :
    Sound E slack bound extra away (g.push o) (.condition :: items) := by
  obtain ⟨held, loops, record, h1, h2⟩ := h.layers
  exact { h with layers := ⟨held, loops, record, .condition ho hs h1, h2⟩ }

/-- **A value is taken,** and can be read. -/
theorem takeValue (h : Sound E slack bound extra away g (.value :: items)) (line : Nat) :
    (g.takeValue line).1.Reads (E.Cell g.memory.dataNext) ∧
      (g.takeValue line).2.memory = g.memory ∧
      Sound E slack bound extra away (g.takeValue line).2 items := by
  obtain ⟨held, loops, record, h1, h2⟩ := h.layers
  obtain ⟨o, st, hst, ho, h1⟩ := h1.of_value
  obtain ⟨voids, errors, ht⟩ := Generator.takeValue_eq hst line
  rw [ht]
  exact ⟨ho, rfl, { h with layers := ⟨held, loops, record, h1, h2⟩ }⟩

theorem popTarget (h : Sound E slack bound extra away g (.target :: items)) :
    g.pop.1.Writes (E.Cell g.memory.dataNext) ∧ g.pop.2.memory = g.memory ∧
      Sound E slack bound extra away g.pop.2 items := by
  obtain ⟨held, loops, record, h1, h2⟩ := h.layers
  obtain ⟨o, st, hst, ho, h1⟩ := h1.of_target
  rw [Generator.pop_eq hst]
  exact ⟨ho, rfl, { h with layers := ⟨held, loops, record, h1, h2⟩ }⟩

theorem popRelation (h : Sound E slack bound extra away g (.relation :: items)) :
    g.pop.2.memory = g.memory ∧ Sound E slack bound extra away g.pop.2 items := by
  obtain ⟨held, loops, record, h1, h2⟩ := h.layers
  obtain ⟨o, st, hst, h1⟩ := h1.of_relation
  rw [Generator.pop_eq hst]
  exact ⟨rfl, { h with layers := ⟨held, loops, record, h1, h2⟩ }⟩

theorem popValue (h : Sound E slack bound extra away g (.value :: items)) :
    g.pop.2.memory = g.memory ∧ Sound E slack bound extra away g.pop.2 items := by
  obtain ⟨held, loops, record, h1, h2⟩ := h.layers
  obtain ⟨o, st, hst, -, h1⟩ := h1.of_value
  rw [Generator.pop_eq hst]
  exact ⟨rfl, { h with layers := ⟨held, loops, record, h1, h2⟩ }⟩

theorem popCondition (h : Sound E slack bound extra away g (.condition :: items)) :
    g.pop.1.Reads (E.Cell g.memory.dataNext) ∧ g.pop.2.memory = g.memory ∧
      E.config.programSize < 2 ^ 63 ∧ Sound E slack bound extra away g.pop.2 items := by
  obtain ⟨held, loops, record, h1, h2⟩ := h.layers
  obtain ⟨o, st, hst, ho, hs, h1⟩ := h1.of_condition
  rw [Generator.pop_eq hst]
  exact ⟨ho, rfl, hs, { h with layers := ⟨held, loops, record, h1, h2⟩ }⟩

end Stack

end Sound

end OnePass.Emission
