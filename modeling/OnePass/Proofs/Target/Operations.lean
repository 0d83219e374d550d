import OnePass.Proofs.Emission.Ensures
import OnePass.Proofs.Target.Closed

/-!
# Histories of a memory image

A memory image is asked for slots, cells and temporaries, and some of them are given back, in any
order and after refusals, too. Whoever asks gives back only what is in use.

* `Operation`: what a memory image is asked. `Operation.after`: the image that it leaves.
* `Operation.attempt_of_error`: what is refused leaves the image as it was.
* `Ledger`: an image with all that is in use. `Ledger.Fair`: nothing else is given back.
* `Ledger.Sound`: what is in use lies in its zone, each cell once. `Sound.serve`: every operation
  keeps it so.
* `dataNext_serveAll`: how far the pointer of the cells goes, whatever is asked.
* `zones_of_operations`: **along every fair history the zones hold what they should.**
-/

namespace OnePass.Target

/-- **What a memory image is asked.** -/
inductive Operation where
  | emit (i : Instruction)
  | reserve
  | fill (slot : Nat) (i : Instruction)
  | takeCell
  | takeNextCell
  | freeCell (cell : Nat)
  | takeTemp
  | dropTemp (cell : Nat)

namespace Memory.Step

/-- **A step that is refused before it changes anything.** -/
def Atomic {α : Type} (step : Step α) : Prop := ∀ m e m', step m = .error e m' → m' = m

theorem atomic_append (content : Option Instruction) : Atomic (append content) := by
  intro m e m' h
  rw [append, get_bind] at h
  split at h <;> cases h
  rfl

theorem atomic_fill (slot : Nat) (i : Instruction) : Atomic (fill slot i) := by
  intro m e m' h
  rw [fill, get_bind] at h
  split at h <;> cases h
  rfl

theorem atomic_nextCell : Atomic nextCell := by
  intro m e m' h
  rw [nextCell, get_bind] at h
  split at h <;> cases h
  rfl

theorem atomic_cell : Atomic cell := by
  intro m e m' h
  rw [cell, get_bind] at h
  cases hspare : m.spareCells with
  | nil =>
    rw [hspare] at h
    exact atomic_nextCell m e m' h
  | cons a rest =>
    rw [hspare] at h
    cases h

theorem atomic_temp : Atomic temp := by
  intro m e m' h
  rw [temp, get_bind] at h
  split at h <;> cases h
  rfl

theorem Atomic.map {α β : Type} {step : Step α} (h : Atomic step) (f : α → β) :
    Atomic (f <$> step) := by
  intro m e m' hstep
  have hmap : (f <$> step) m = EStateM.map f step m := rfl
  rw [hmap, EStateM.map] at hstep
  split at hstep
  · cases hstep
  · rename_i heq
    cases hstep
    exact h m _ _ heq

end Memory.Step

namespace Operation

/-- The slot or the cell that is answered, if any is, and the image behind it. -/
def run : Operation → Memory → Except MemoryError (Option Nat × Memory)
  | emit i, m => (m.emit i).map (Prod.map some id)
  | reserve, m => m.reserve.map (Prod.map some id)
  | fill slot i, m => (m.fill slot i).map (Prod.map (fun _ => none) id)
  | takeCell, m => m.takeCell.map (Prod.map some id)
  | takeNextCell, m => m.takeNextCell.map (Prod.map some id)
  | freeCell cell, m => .ok (none, m.freeCell cell)
  | takeTemp, m => m.takeTemp.map (Prod.map some id)
  | dropTemp cell, m => .ok (none, m.dropTemp cell)

/-- **What an operation does to a memory image,** also if it is refused. -/
def attempt : Operation → Memory.Step (Option Nat)
  | emit i => some <$> Memory.Step.append (some i)
  | reserve => some <$> Memory.Step.append none
  | fill slot i => (fun _ => none) <$> Memory.Step.fill slot i
  | takeCell => some <$> Memory.Step.cell
  | takeNextCell => some <$> Memory.Step.nextCell
  | freeCell cell => modifyGet fun m => (none, m.freeCell cell)
  | takeTemp => some <$> Memory.Step.temp
  | dropTemp cell => modifyGet fun m => (none, m.dropTemp cell)

theorem atomic_attempt (op : Operation) : op.attempt.Atomic := by
  cases op with
  | emit i => exact (Memory.Step.atomic_append _).map _
  | reserve => exact (Memory.Step.atomic_append _).map _
  | fill slot i => exact (Memory.Step.atomic_fill slot i).map _
  | takeCell => exact Memory.Step.atomic_cell.map _
  | takeNextCell => exact Memory.Step.atomic_nextCell.map _
  | takeTemp => exact Memory.Step.atomic_temp.map _
  | freeCell cell =>
    intro m e m' h
    cases h
  | dropTemp cell =>
    intro m e m' h
    cases h

/-- The image that an operation leaves. One that is refused leaves it as it was. -/
def after (op : Operation) (m : Memory) : Memory :=
  match op.run m with
  | .ok (_, m') => m'
  | .error _ => m

/-- What is answered, unless the operation is refused. -/
def answer? (op : Operation) (m : Memory) : Option Nat :=
  match op.run m with
  | .ok (answer, _) => answer
  | .error _ => none

/-- **All that an operation does** to a memory image, with what it answers. -/
inductive Does (m : Memory) : Operation → Option Nat → Memory → Prop
  | refused {op : Operation} {e : MemoryError} (h : op.run m = .error e) : Does m op none m
  | appends {op : Operation} {content : Option Instruction}
      (hop : (∃ i, op = .emit i) ∨ op = .reserve) (h : m.program.size < m.programSize) :
      Does m op (some m.program.size) { m with program := m.program.push content }
  | fills {slot : Nat} {i : Instruction} :
      Does m (.fill slot i) none { m with program := m.program.setIfInBounds slot (some i) }
  /-- A cell that was given back is handed out again. -/
  | reuses {a : Nat} {rest : List Nat} (h : m.spareCells = a :: rest) :
      Does m .takeCell (some a) { m with spareCells := rest }
  | takes {op : Operation} (hop : op = .takeNextCell ∨ op = .takeCell ∧ m.spareCells = [])
      (h : m.dataNext + m.unit ≤ m.tempsFrom) :
      Does m op (some m.dataNext) { m with dataNext := m.dataNext + m.unit }
  | frees {a : Nat} (h : a ∉ m.spareCells) :
      Does m (.freeCell a) none { m with spareCells := a :: m.spareCells }
  | freed {a : Nat} (h : a ∈ m.spareCells) : Does m (.freeCell a) none m
  | takesTemp (h : m.tempNext + m.unit ≤ m.capacity) :
      Does m .takeTemp (some m.tempNext) { m with tempNext := m.tempNext + m.unit }
  | drops {a : Nat} (h : m.isLatestTemp a = true) :
      Does m (.dropTemp a) none { m with tempNext := a }
  | keeps {a : Nat} (h : m.isLatestTemp a = false) : Does m (.dropTemp a) none m

variable {op : Operation} {m m' : Memory} {a : Nat}

theorem answer_map {α β : Type} (f : α → β) (step : Memory.Step α) (m : Memory) :
    Memory.Step.answer (f <$> step) m = (step.answer m).map (Prod.map f id) := by
  have hmap : (f <$> step) m = EStateM.map f step m := rfl
  rw [Memory.Step.answer, hmap, EStateM.map, Memory.Step.answer]
  cases step m <;> rfl

/-- What is answered is what the attempt answers. -/
theorem run_eq (op : Operation) (m : Memory) : op.run m = op.attempt.answer m := by
  cases op with
  | freeCell | dropTemp => rfl
  | _ => exact (answer_map _ _ m).symm

/-- **Room is looked for before anything is changed.** An attempt that is refused leaves the image
as it was. -/
theorem attempt_of_error {e : MemoryError} (h : op.run m = .error e) :
    op.attempt m = .error e m := by
  rw [run_eq, Memory.Step.answer] at h
  cases hattempt : op.attempt m with
  | ok answer m' =>
    rw [hattempt] at h
    cases h
  | error e' m' =>
    rw [hattempt] at h
    cases h
    rw [op.atomic_attempt m e m' hattempt]

theorem after_eq {answer : Option Nat} (h : op.run m = .ok (answer, m')) :
    op.after m = m' ∧ op.answer? m = answer := by
  rw [after, answer?, h]
  exact ⟨rfl, rfl⟩

theorem does_of_error {e : MemoryError} (h : op.run m = .error e) :
    Does m op (op.answer? m) (op.after m) := by
  rw [after, answer?, h]
  exact .refused h

theorem does_of_ok {answer : Option Nat} (h : op.run m = .ok (answer, m'))
    (hdoes : Does m op answer m') : Does m op (op.answer? m) (op.after m) := by
  obtain ⟨hafter, hanswer⟩ := after_eq h
  rwa [hafter, hanswer]

/-- A slot is appended, if there is room. -/
theorem does_append {content : Option Instruction} (hop : (∃ i, op = .emit i) ∨ op = .reserve)
    (hrun : op.run m = (m.appendSlot content).map (Prod.map some id)) :
    Does m op (op.answer? m) (op.after m) := by
  rw [Memory.appendSlot_eq] at hrun
  split at hrun
  · exact does_of_error hrun
  · rename_i hroom
    exact does_of_ok hrun (.appends hop (Nat.lt_of_not_le hroom))

/-- A cell is taken from the pointer, if there is room. -/
theorem does_takeNextCell (hop : op = .takeNextCell ∨ op = .takeCell ∧ m.spareCells = [])
    (hrun : op.run m = m.takeNextCell.map (Prod.map some id)) :
    Does m op (op.answer? m) (op.after m) := by
  rw [Memory.takeNextCell_eq] at hrun
  split at hrun
  · exact does_of_error hrun
  · rename_i hroom
    exact does_of_ok hrun (.takes hop (Nat.le_of_not_lt hroom))

/-- **What an operation does.** -/
theorem does (op : Operation) (m : Memory) : Does m op (op.answer? m) (op.after m) := by
  cases op with
  | emit i => exact does_append (.inl ⟨i, rfl⟩) rfl
  | reserve => exact does_append (.inr rfl) rfl
  | fill slot i =>
    by_cases h : slot < m.programNext
    · have hrun : run (.fill slot i) m =
          .ok (none, { m with program := m.program.setIfInBounds slot (some i) }) := by
        rw [run, Memory.fill_eq, if_pos h]
        rfl
      exact does_of_ok hrun .fills
    · have hrun : run (.fill slot i) m = .error (.slotOutOfRange slot m.programNext) := by
        rw [run, Memory.fill_eq, if_neg h]
        rfl
      exact does_of_error hrun
  | takeCell =>
    cases hspare : m.spareCells with
    | nil =>
      refine does_takeNextCell (.inr ⟨rfl, hspare⟩) ?_
      rw [run, Memory.takeCell_eq, hspare]
    | cons a rest =>
      have hrun : run .takeCell m = .ok (some a, { m with spareCells := rest }) := by
        rw [run, Memory.takeCell_eq, hspare]
        rfl
      exact does_of_ok hrun (.reuses hspare)
  | takeNextCell => exact does_takeNextCell (.inl rfl) rfl
  | freeCell a =>
    refine does_of_ok rfl ?_
    unfold Memory.freeCell
    split
    · rename_i h
      exact .freed (List.contains_iff_mem.1 h)
    · rename_i h
      exact .frees fun hmem => h (List.contains_iff_mem.2 hmem)
  | takeTemp =>
    by_cases h : m.capacity < m.tempNext + m.unit
    · have hrun : run .takeTemp m = .error (.exhausted .temporary m.capacity) := by
        rw [run, Memory.takeTemp_eq, if_pos h]
        rfl
      exact does_of_error hrun
    · have hrun : run .takeTemp m =
          .ok (some m.tempNext, { m with tempNext := m.tempNext + m.unit }) := by
        rw [run, Memory.takeTemp_eq, if_neg h]
        rfl
      exact does_of_ok hrun (.takesTemp (Nat.le_of_not_lt h))
  | dropTemp a =>
    refine does_of_ok rfl ?_
    unfold Memory.dropTemp
    split
    · rename_i h
      exact .drops h
    · rename_i h
      exact .keeps (Bool.not_eq_true _ |>.mp h)

end Operation

/-- **A memory image with what is in use of it:** the cells and the temporaries that were handed out
and not taken back. A temporary that is given back too early stays in use. -/
structure Ledger where
  memory : Memory
  cells : List Nat
  temps : List Nat

theorem Memory.takeNextCell_eq_ok {m m' : Memory} {a : Nat} (h : m.takeNextCell = .ok (a, m')) :
    a = m.dataNext ∧ m.dataNext + m.unit ≤ m.tempsFrom := by
  rw [takeNextCell_eq] at h
  split at h
  · cases h
  · rename_i hroom
    cases h
    exact ⟨rfl, Nat.le_of_not_lt hroom⟩

namespace Ledger

open Operation (Does)

def ofConfig (c : Config) : Ledger := ⟨.ofConfig c, [], []⟩

/-- The ledger behind an operation. -/
def serve (l : Ledger) (op : Operation) : Ledger where
  memory := op.after l.memory
  cells := match op with
    | .takeCell | .takeNextCell => (op.answer? l.memory).toList ++ l.cells
    | .freeCell a => l.cells.erase a
    | _ => l.cells
  temps := match op with
    | .takeTemp => (op.answer? l.memory).toList ++ l.temps
    | .dropTemp a => if l.memory.isLatestTemp a then l.temps.erase a else l.temps
    | _ => l.temps

/-- The ledger behind one operation after the other. -/
def serveAll (l : Ledger) (ops : List Operation) : Ledger := ops.foldl serve l

/-- What is given back by an operation is in use. -/
def Returns (l : Ledger) : Operation → Prop
  | .freeCell a => a ∈ l.cells
  | .dropTemp a => a ∈ l.temps
  | _ => True

instance (l : Ledger) : (op : Operation) → Decidable (l.Returns op)
  | .freeCell a => inferInstanceAs (Decidable (a ∈ l.cells))
  | .dropTemp a => inferInstanceAs (Decidable (a ∈ l.temps))
  | .emit _ | .reserve | .fill _ _ | .takeCell | .takeNextCell | .takeTemp => .isTrue trivial

/-- **Nothing is given back that is not in use.** -/
def Fair (l : Ledger) : List Operation → Prop
  | [] => True
  | op :: ops => l.Returns op ∧ (l.serve op).Fair ops

instance decidableFair (l : Ledger) : (ops : List Operation) → Decidable (l.Fair ops)
  | [] => .isTrue trivial
  | op :: ops =>
    haveI := decidableFair (l.serve op) ops
    inferInstanceAs (Decidable (l.Returns op ∧ (l.serve op).Fair ops))

/-- **What is in use lies in its zone,** each cell and each temporary once, and no cell is free
that is in use. -/
structure Sound (c : Config) (l : Ledger) : Prop where
  memory : l.memory.Regular c
  cells : (l.cells ++ l.memory.spareCells).Nodup
  data : ∀ a ∈ l.cells, DataCell c l.memory.dataNext a
  temps : l.temps.Nodup
  taken : ∀ a ∈ l.temps, a < l.memory.tempNext ∧ ∃ k, a = c.tempsFrom + k * c.unit

variable {c : Config} {l : Ledger} {op : Operation}

/-- Of two addresses in line the greater lies a whole cell behind the other. -/
theorem add_unit_le {first unit a b : Nat} (ha : ∃ k, a = first + k * unit)
    (hb : ∃ k, b = first + k * unit) (h : a < b) : a + unit ≤ b := by
  obtain ⟨j, rfl⟩ := ha
  obtain ⟨k, rfl⟩ := hb
  have hlt : j < k := by
    refine Nat.lt_of_mul_lt_mul_right (a := unit) ?_
    omega
  have hle : (j + 1) * unit ≤ k * unit := Nat.mul_le_mul_right unit hlt
  rw [Nat.add_mul] at hle
  omega

theorem sound_ofConfig (h : c.tempsFrom ≤ c.capacity) : (ofConfig c).Sound c where
  memory := Memory.regular_ofConfig h
  cells := .nil
  data _ ha := absurd ha List.not_mem_nil
  temps := .nil
  taken _ ha := absurd ha List.not_mem_nil

/-- An operation that is refused leaves the whole ledger as it was. -/
theorem serve_of_error {e : MemoryError} (h : op.run l.memory = .error e) : l.serve op = l := by
  have hafter : op.after l.memory = l.memory := by rw [Operation.after, h]
  have hanswer : op.answer? l.memory = none := by rw [Operation.answer?, h]
  cases op with
  | freeCell a => cases h
  | dropTemp a => cases h
  | _ =>
    unfold serve
    simp only [hafter, hanswer, Option.toList_none, List.nil_append]

namespace Sound

variable (h : l.Sound c) {a : Nat}

include h

/-- Nothing is in use or free at the pointer of the cells. -/
theorem dataNext_not_mem : l.memory.dataNext ∉ l.cells ++ l.memory.spareCells := by
  intro hmem
  rcases List.mem_append.1 hmem with hmem | hmem
  · exact absurd (h.data _ hmem).1 (Nat.lt_irrefl _)
  · exact absurd (h.memory.spare _ hmem).1 (Nat.lt_irrefl _)

theorem withProgram {program : Array (Option Instruction)} (hsize : program.size ≤ c.programSize) :
    Sound c ⟨{ l.memory with program := program }, l.cells, l.temps⟩ :=
  { h with memory := { h.memory with size := hsize } }

theorem reuse {rest : List Nat} (hspare : l.memory.spareCells = a :: rest) :
    Sound c ⟨{ l.memory with spareCells := rest }, a :: l.cells, l.temps⟩ := by
  have hcells := h.cells
  have hfree := h.memory.spare
  rw [hspare] at hcells hfree
  obtain ⟨ha, hrest⟩ := List.forall_mem_cons.1 hfree
  exact { h with
    memory := { h.memory with spare := hrest }
    cells := List.perm_middle.nodup_iff.1 hcells
    data := List.forall_mem_cons.2 ⟨ha, h.data⟩ }

theorem take (hu : 0 < c.unit) (hroom : l.memory.dataNext + l.memory.unit ≤ l.memory.tempsFrom) :
    Sound c ⟨{ l.memory with dataNext := l.memory.dataNext + l.memory.unit },
      l.memory.dataNext :: l.cells, l.temps⟩ := by
  have htake : l.memory.takeNextCell =
      .ok (l.memory.dataNext, { l.memory with dataNext := l.memory.dataNext + l.memory.unit }) := by
    rw [Memory.takeNextCell_eq, if_neg (Nat.not_lt.2 hroom)]
  obtain ⟨hcell, hregular, hle, -⟩ := Memory.takeNextCell_spec h.memory hu htake
  exact { h with
    memory := hregular
    cells := List.nodup_cons.2 ⟨h.dataNext_not_mem, h.cells⟩
    data := List.forall_mem_cons.2
      ⟨hcell, fun a ha => ⟨Nat.lt_of_lt_of_le (h.data a ha).1 hle, (h.data a ha).2⟩⟩ }

theorem free (ha : a ∈ l.cells) :
    Sound c ⟨{ l.memory with spareCells := a :: l.memory.spareCells }, l.cells.erase a,
      l.temps⟩ := by
  -- the cell goes over from those in use to the free ones, so all together stay the same
  have hperm : (l.cells ++ l.memory.spareCells).Perm
      (l.cells.erase a ++ a :: l.memory.spareCells) :=
    ((List.perm_cons_erase ha).append_right _).trans List.perm_middle.symm
  exact { h with
    memory := { h.memory with spare := List.forall_mem_cons.2 ⟨h.data a ha, h.memory.spare⟩ }
    cells := hperm.nodup_iff.1 h.cells
    data := fun b hb => h.data b (List.mem_of_mem_erase hb) }

/-- A cell in use is not free. -/
theorem not_spare (ha : a ∈ l.cells) : a ∉ l.memory.spareCells :=
  fun hspare => (List.nodup_append.1 h.cells).2.2 a ha a hspare rfl

theorem takeTemp (hu : 0 < c.unit) (hroom : l.memory.tempNext + l.memory.unit ≤ l.memory.capacity) :
    Sound c ⟨{ l.memory with tempNext := l.memory.tempNext + l.memory.unit }, l.cells,
      l.memory.tempNext :: l.temps⟩ := by
  have hunit := h.memory.unit
  have hnext : l.memory.tempNext ∉ l.temps :=
    fun hmem => absurd (h.taken _ hmem).1 (Nat.lt_irrefl _)
  refine { h with memory := h.memory.withTemp hroom, temps := List.nodup_cons.2 ⟨hnext, h.temps⟩,
                  taken := List.forall_mem_cons.2 ⟨⟨?_, h.memory.temps⟩, fun b hb => ?_⟩ }
  · dsimp only
    omega
  · exact ⟨Nat.lt_add_right _ (h.taken b hb).1, (h.taken b hb).2⟩

/-- Behind the latest temporary there is no other. -/
theorem dropTemp (hlatest : l.memory.isLatestTemp a = true) :
    Sound c ⟨{ l.memory with tempNext := a }, l.cells, l.temps.erase a⟩ := by
  have hregular := h.memory.dropTemp a
  rw [Memory.dropTemp, if_pos hlatest] at hregular
  rw [Memory.isLatestTemp, Bool.and_eq_true, beq_iff_eq, decide_eq_true_eq] at hlatest
  have hunit := h.memory.unit
  refine { h with memory := hregular, temps := h.temps.erase a, taken := fun b hb => ?_ }
  obtain ⟨hne, hmem⟩ := h.temps.mem_erase_iff.1 hb
  obtain ⟨hlt, hline⟩ := h.taken b hmem
  have hle := add_unit_le hline h.memory.temps hlt
  exact ⟨by dsimp only; omega, hline⟩

/-- **Every operation keeps what is in use in its zone,** if nothing else is given back. -/
theorem serve (hu : 0 < c.unit) (hreturns : l.Returns op) : (l.serve op).Sound c := by
  cases hrun : op.run l.memory with
  | error e =>
    rw [serve_of_error hrun]
    exact h
  | ok r =>
    have hdoes := op.does l.memory
    unfold Ledger.serve
    generalize op.answer? l.memory = answer, op.after l.memory = m at hdoes ⊢
    cases hdoes with
    | refused hrefused => cases hrefused.symm.trans hrun
    | appends hop hroom =>
      rename_i content
      have hsize : (l.memory.program.push content).size ≤ c.programSize := by
        rw [Array.size_push, ← h.memory.programSize]
        exact hroom
      have hsound := h.withProgram hsize
      rcases hop with ⟨i, rfl⟩ | rfl <;> exact hsound
    | fills => exact h.withProgram (by rw [Array.size_setIfInBounds]; exact h.memory.size)
    | reuses hspare => exact h.reuse hspare
    | takes hop hroom =>
      have hsound := h.take hu hroom
      rcases hop with rfl | ⟨rfl, -⟩ <;> exact hsound
    | frees => exact h.free hreturns
    | freed hspare => exact absurd hspare (h.not_spare hreturns)
    | takesTemp hroom => exact h.takeTemp hu hroom
    | drops hlatest =>
      dsimp only
      rw [if_pos hlatest]
      exact h.dropTemp hlatest
    | keeps hkept =>
      dsimp only
      rw [if_neg (by rw [hkept]; exact Bool.false_ne_true)]
      exact h

/-- **Every fair history keeps what is in use in its zone.** -/
theorem serveAll {ops : List Operation} (hu : 0 < c.unit) (hfair : l.Fair ops) :
    (l.serveAll ops).Sound c := by
  induction ops generalizing l with
  | nil => exact h
  | cons op ops ih => exact ih (h.serve hu hfair.1) hfair.2

/-- A cell in use lies in line and with its whole width below the temporaries. -/
theorem cell_in_zone (ha : a ∈ l.cells) :
    (∃ k, a = c.cellsFrom + k * c.unit) ∧ a + c.unit ≤ c.tempsFrom := by
  obtain ⟨hlt, hline⟩ := h.data a ha
  exact ⟨hline, Nat.le_trans (add_unit_le hline h.memory.data hlt) h.memory.data_le⟩

/-- A temporary in use lies in line and with its whole width below the capacity. -/
theorem temp_in_zone (ha : a ∈ l.temps) :
    (∃ k, a = c.tempsFrom + k * c.unit) ∧ a + c.unit ≤ c.capacity := by
  obtain ⟨hlt, hline⟩ := h.taken a ha
  exact ⟨hline, Nat.le_trans (add_unit_le hline h.memory.temps hlt) h.memory.temps_le⟩

/-- A cell that is handed out lies in its zone and is not in use yet. -/
theorem cell_of_run {m : Memory} (hu : 0 < c.unit) (hop : op = .takeCell ∨ op = .takeNextCell)
    (hrun : op.run l.memory = .ok (some a, m)) :
    (∃ k, a = c.cellsFrom + k * c.unit) ∧ a + c.unit ≤ c.tempsFrom ∧ a ∉ l.cells := by
  have hcells : (l.serve op).cells = a :: l.cells := by
    have hanswer := (Operation.after_eq hrun).2
    rcases hop with rfl | rfl <;>
    · dsimp only [Ledger.serve]
      rw [hanswer]
      rfl
  -- behind the operation the cell is in use, and what is in use differs
  have hserve : (l.serve op).Sound c :=
    h.serve hu (by rcases hop with rfl | rfl <;> exact trivial)
  obtain ⟨hline, hle⟩ := hserve.cell_in_zone (hcells ▸ List.mem_cons_self)
  have hnodup := (List.nodup_append.1 hserve.cells).1
  rw [hcells] at hnodup
  exact ⟨hline, hle, (List.nodup_cons.1 hnodup).1⟩

/-- A temporary that is handed out lies in its zone and is not in use yet. -/
theorem temp_of_run {m : Memory} (hu : 0 < c.unit)
    (hrun : Operation.takeTemp.run l.memory = .ok (some a, m)) :
    (∃ k, a = c.tempsFrom + k * c.unit) ∧ a + c.unit ≤ c.capacity ∧ a ∉ l.temps := by
  have htemps : (l.serve .takeTemp).temps = a :: l.temps := by
    have hanswer := (Operation.after_eq hrun).2
    dsimp only [Ledger.serve]
    rw [hanswer]
    rfl
  have hserve : (l.serve .takeTemp).Sound c := h.serve hu trivial
  obtain ⟨hline, hle⟩ := hserve.temp_in_zone (htemps ▸ List.mem_cons_self)
  have hnodup := hserve.temps
  rw [htemps] at hnodup
  exact ⟨hline, hle, (List.nodup_cons.1 hnodup).1⟩

end Sound

/-- Whether a cell is taken from the pointer of the cells, which moves it. -/
def movesPointer (m : Memory) : Operation → Bool
  | .takeNextCell => m.dataNext + m.unit ≤ m.tempsFrom
  | .takeCell => m.spareCells.isEmpty && m.dataNext + m.unit ≤ m.tempsFrom
  | _ => false

/-- How often the pointer of the cells is moved along a history. -/
def pointerMoves (l : Ledger) : List Operation → Nat
  | [] => 0
  | op :: ops => (movesPointer l.memory op).toNat + (l.serve op).pointerMoves ops

theorem movesPointer_of_error {m : Memory} {e : MemoryError} (h : op.run m = .error e) :
    movesPointer m op = false := by
  have hnext : ∀ e, m.takeNextCell = .error e → ¬m.dataNext + m.unit ≤ m.tempsFrom := by
    intro e hfail hroom
    rw [Memory.takeNextCell_eq, if_neg (Nat.not_lt.2 hroom)] at hfail
    cases hfail
  have hmap : ∀ {r : Except MemoryError (Nat × Memory)},
      r.map (Prod.map some id) = .error e → r = .error e := by
    rintro (e' | r) hr <;> cases hr
    rfl
  cases op with
  | takeNextCell => exact decide_eq_false (hnext e (hmap h))
  | takeCell =>
    replace h := hmap h
    rw [Memory.takeCell_eq] at h
    unfold movesPointer
    split at h
    · cases h
    · rw [decide_eq_false (hnext e h), Bool.and_false]
  | _ => rfl

/-- The pointer of the cells is moved by a cell or not at all. -/
theorem pointer_serve (l : Ledger) (op : Operation) :
    (l.serve op).memory.unit = l.memory.unit ∧
      (l.serve op).memory.dataNext =
        l.memory.dataNext + (movesPointer l.memory op).toNat * l.memory.unit := by
  have hdoes := op.does l.memory
  change (op.after l.memory).unit = _ ∧ (op.after l.memory).dataNext = _
  generalize op.answer? l.memory = answer, op.after l.memory = m at hdoes ⊢
  cases hdoes with
  | refused hrun => simp [movesPointer_of_error hrun]
  | appends hop => rcases hop with ⟨i, rfl⟩ | rfl <;> simp [movesPointer]
  | takes hop hroom =>
    rcases hop with rfl | ⟨rfl, hspare⟩
    · simp [movesPointer, hroom]
    · simp [movesPointer, hroom, hspare]
  | reuses hspare => simp [movesPointer, hspare]
  | _ => simp [movesPointer]

/-- **The pointer of the cells stands as many cells further** as it was moved. -/
theorem dataNext_serveAll (l : Ledger) (ops : List Operation) :
    (l.serveAll ops).memory.dataNext = l.memory.dataNext + l.pointerMoves ops * l.memory.unit := by
  induction ops generalizing l with
  | nil => exact (Nat.add_eq_left.2 (Nat.zero_mul _)).symm
  | cons op ops ih =>
    obtain ⟨hunit, hnext⟩ := pointer_serve l op
    have hrest := ih (l.serve op)
    rw [hunit, hnext] at hrest
    rw [pointerMoves, Nat.add_mul, ← Nat.add_assoc]
    exact hrest

/-- **From one cell to the next** that is taken from the pointer lie the cells between. -/
theorem next_of_between {between : List Operation} {a b : Nat} {m m' : Memory}
    (ha : l.memory.takeNextCell = .ok (a, m))
    (hb : ((l.serve .takeNextCell).serveAll between).memory.takeNextCell = .ok (b, m')) :
    b = a + ((l.serve .takeNextCell).pointerMoves between + 1) * l.memory.unit := by
  obtain ⟨rfl, hroom⟩ := Memory.takeNextCell_eq_ok ha
  obtain ⟨rfl, -⟩ := Memory.takeNextCell_eq_ok hb
  obtain ⟨hunit, hnext⟩ := pointer_serve l .takeNextCell
  rw [movesPointer, decide_eq_true hroom, Bool.toNat_true] at hnext
  rw [dataNext_serveAll, hunit, hnext, Nat.add_mul]
  omega

end Ledger

open Ledger in
/-- **Along every fair history the zones hold what they should.** The program has no more slots
than it may. A cell or a temporary that is handed out lies in line and with its whole width in its
zone, and what is in use differs. Of two cells taken from the pointer the latter lies right behind
the former, unless a third was taken from it between. What is refused leaves everything as it
was: room is looked for before anything is changed. -/
theorem zones_of_operations {c : Config} {ops : List Operation} (hc : c.validate = .ok ())
    (hfair : (ofConfig c).Fair ops) :
    let l := (ofConfig c).serveAll ops
    (l.memory.programNext ≤ c.programSize ∧ l.cells.Nodup ∧ l.temps.Nodup) ∧
    (∀ a m, l.memory.takeCell = .ok (a, m) ∨ l.memory.takeNextCell = .ok (a, m) →
      (∃ k, a = c.cellsFrom + k * c.unit) ∧ a + c.unit ≤ c.tempsFrom ∧ a ∉ l.cells) ∧
    (∀ a m, l.memory.takeTemp = .ok (a, m) →
      (∃ k, a = c.tempsFrom + k * c.unit) ∧ a + c.unit ≤ c.capacity ∧ a ∉ l.temps) ∧
    (∀ between a m b m', l.memory.takeNextCell = .ok (a, m) →
      ((l.serve .takeNextCell).serveAll between).memory.takeNextCell = .ok (b, m') →
      b = a + ((l.serve .takeNextCell).pointerMoves between + 1) * c.unit) ∧
    ∀ op e, op.run l.memory = .error e → l.serve op = l ∧ op.attempt l.memory = .error e l.memory ∧
      ∀ g g' e', Emission.onMemory op.run g = .error e' g' → g' = g := by
  intro l
  obtain ⟨hu, hzones⟩ := c.validate_eq_ok_iff.1 hc
  have hsound : l.Sound c := (sound_ofConfig hzones).serveAll hu hfair
  refine ⟨⟨hsound.memory.size, (List.nodup_append.1 hsound.cells).1, hsound.temps⟩, ?_, ?_, ?_, ?_⟩
  · rintro a m (htake | htake)
    · have hrun : Operation.takeCell.run l.memory = .ok (some a, m) := by
        rw [Operation.run, htake]
        rfl
      exact hsound.cell_of_run hu (.inl rfl) hrun
    · have hrun : Operation.takeNextCell.run l.memory = .ok (some a, m) := by
        rw [Operation.run, htake]
        rfl
      exact hsound.cell_of_run hu (.inr rfl) hrun
  · intro a m htake
    have hrun : Operation.takeTemp.run l.memory = .ok (some a, m) := by
      rw [Operation.run, htake]
      rfl
    exact hsound.temp_of_run hu hrun
  · intro between a m b m' ha hb
    rw [next_of_between ha hb, hsound.memory.unit]
  · intro op e hrun
    exact ⟨serve_of_error hrun, Operation.attempt_of_error hrun, fun g g' e' hfail => Emission.atomic_onMemory g e' g' hfail⟩

/-- Three cells and two temporaries fit. The first cell is given back and handed out again, but not
as the next in line. In the end all is in use. -/
theorem zones_of_operations_full :
    let c : Config := ⟨4, 1, 12, 22, [], false⟩
    let ops := [Operation.emit (.print (.immediate 1)), .reserve, .takeCell, .takeNextCell,
      .freeCell 1, .takeNextCell, .takeCell, .takeNextCell, .takeTemp, .takeTemp, .takeTemp,
      .dropTemp 13, .dropTemp 17, .takeTemp]
    c.validate = .ok () ∧ (Ledger.ofConfig c).Fair ops ∧
      ((Ledger.ofConfig c).serveAll ops).cells.Nodup ∧
      ((Ledger.ofConfig c).serveAll ops).cells = [1, 9, 5] ∧
      ((Ledger.ofConfig c).serveAll ops).temps = [17, 13] := by
  have hc : (⟨4, 1, 12, 22, [], false⟩ : Config).validate = .ok () := rfl
  exact ⟨hc, by decide, (zones_of_operations hc (by decide)).1.2.1, by decide, by decide⟩

end OnePass.Target
