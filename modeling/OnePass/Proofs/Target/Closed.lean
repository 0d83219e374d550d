import Mathlib.Algebra.Order.Ring.Nat
import OnePass.Target.Memory

/-!
# Closed code

Code is closed if it mentions cells only that were handed out, jumps nowhere but into
the program and writes no number. The allocator hands out cells that lie in line.

* `Instruction.Closed`: one instruction, with the cells and the slots it may mention.
* `DataCell`: a variable cell below an address.
* `Memory.Regular`: the allocator's pointers; `takeCell_spec`, `freeCells_eq`.
* `Holes`: the slots of a program that are still empty.
-/

namespace OnePass.Target

namespace Operand

theorem word_of_lt {a : Nat} (h : a < 2 ^ 63) : word a = a := by
  refine word_eq_self ?_
  unfold maxWord
  omega

theorem value_direct {a : Nat} (h : a < 2 ^ 63) : (direct a).value = a := by
  dsimp only [direct]
  exact word_of_lt h

theorem value_indirect {a : Nat} (h : a < 2 ^ 63) : (indirect a).value = a := by
  dsimp only [indirect]
  exact word_of_lt h

/-- The operand is a number, or names one of the cells. -/
def Reads (cell : Nat → Prop) (o : Operand) : Prop :=
  o.mode ≠ .immediate → ∃ a : Nat, o.value = a ∧ cell a

/-- The operand names one of the cells. -/
def Writes (cell : Nat → Prop) (o : Operand) : Prop :=
  o.mode ≠ .immediate ∧ ∃ a : Nat, o.value = a ∧ cell a

/-- The operand is a slot no later than `limit`. -/
def LeadsTo (limit : Nat) (o : Operand) : Prop :=
  o.mode = .direct ∧ ∃ s : Nat, o.value = s ∧ s ≤ limit

variable {cell cell' : Nat → Prop} {o : Operand} {limit limit' : Nat}

theorem Reads.mono (h : o.Reads cell) (hc : ∀ a, cell a → cell' a) : o.Reads cell' :=
  fun hm => (h hm).imp fun a ha => ⟨ha.1, hc a ha.2⟩

theorem Writes.mono (h : o.Writes cell) (hc : ∀ a, cell a → cell' a) : o.Writes cell' :=
  ⟨h.1, h.2.imp fun a ha => ⟨ha.1, hc a ha.2⟩⟩

theorem Writes.reads (h : o.Writes cell) : o.Reads cell := fun _ => h.2

theorem LeadsTo.mono (h : o.LeadsTo limit) (hl : limit ≤ limit') : o.LeadsTo limit' :=
  ⟨h.1, h.2.imp fun _ hs => ⟨hs.1, Nat.le_trans hs.2 hl⟩⟩

theorem reads_immediate (v : Int) : (immediate v).Reads cell := fun h => absurd rfl h

theorem writes_direct {a : Nat} (h : cell a) (ha : a < 2 ^ 63) : (direct a).Writes cell :=
  ⟨by simp [direct], a, value_direct ha, h⟩

theorem writes_indirect {a : Nat} (h : cell a) (ha : a < 2 ^ 63) : (indirect a).Writes cell :=
  ⟨by simp [indirect], a, value_indirect ha, h⟩

theorem leadsTo_direct {s : Nat} (h : s ≤ limit) (hs : s < 2 ^ 63) : (direct s).LeadsTo limit :=
  ⟨rfl, s, value_direct hs, h⟩

end Operand

namespace Instruction

/-- **A closed instruction:** it reads and writes only these cells, jumps to a slot no later than
`limit` or through one of the cells, and its destination is no number. -/
def Closed (cell : Nat → Prop) (limit : Nat) (i : Instruction) : Prop :=
  match i.opcode with
  | .jump => i.first.LeadsTo limit ∨
      (i.first.mode = .indirect ∧ ∃ a : Nat, i.first.value = a ∧ cell a)
  | .jumpFalse => i.first.Reads cell ∧ ∃ s, i.second = some s ∧ s.LeadsTo limit
  | .print => i.first.Reads cell
  | .assign => i.first.Reads cell ∧ ∃ d, i.second = some d ∧ d.Writes cell
  | _ => i.first.Reads cell ∧ (∃ r, i.second = some r ∧ r.Reads cell) ∧
      ∃ d, i.third = some d ∧ d.Writes cell

variable {cell cell' : Nat → Prop} {limit limit' : Nat} {i : Instruction} {a b d : Operand}

theorem Closed.mono (h : i.Closed cell limit) (hc : ∀ a, cell a → cell' a) (hl : limit ≤ limit') :
    i.Closed cell' limit' := by
  have hbinary : (i.first.Reads cell ∧ (∃ r, i.second = some r ∧ r.Reads cell) ∧
      ∃ d, i.third = some d ∧ d.Writes cell) → i.first.Reads cell' ∧
      (∃ r, i.second = some r ∧ r.Reads cell') ∧ ∃ d, i.third = some d ∧ d.Writes cell' := by
    rintro ⟨h1, ⟨r, h2, h3⟩, d, h4, h5⟩
    exact ⟨h1.mono hc, ⟨r, h2, h3.mono hc⟩, d, h4, h5.mono hc⟩
  unfold Closed at h ⊢
  split at h
  · rcases h with h | ⟨h1, a, h2, h3⟩
    · exact .inl (h.mono hl)
    · exact .inr ⟨h1, a, h2, hc a h3⟩
  · obtain ⟨h1, s, h2, h3⟩ := h
    exact ⟨h1.mono hc, s, h2, h3.mono hl⟩
  · exact Operand.Reads.mono h hc
  · obtain ⟨h1, d, h2, h3⟩ := h
    exact ⟨h1.mono hc, d, h2, h3.mono hc⟩
  · exact hbinary h

theorem closed_binary {op : Opcode} (hop : op = .add ∨ op = .sub ∨ op = .mult ∨ op = .eq ∨ op = .lt)
    (ha : a.Reads cell) (hb : b.Reads cell) (hd : d.Writes cell) :
    (binary op a b d).Closed cell limit := by
  rcases hop with rfl | rfl | rfl | rfl | rfl <;>
    exact ⟨ha, ⟨b, rfl, hb⟩, d, rfl, hd⟩

theorem closed_assign (ha : a.Reads cell) (hd : d.Writes cell) : (assign a d).Closed cell limit :=
  ⟨ha, d, rfl, hd⟩

theorem closed_print (ha : a.Reads cell) : (print a).Closed cell limit := ha

theorem closed_jump {s : Nat} (h : s ≤ limit) (hs : s < 2 ^ 63) : (jump s).Closed cell limit :=
  .inl (Operand.leadsTo_direct h hs)

theorem closed_jumpThrough {n : Nat} (h : cell n) (hn : n < 2 ^ 63) :
    (jumpThrough n).Closed cell limit :=
  .inr ⟨rfl, n, Operand.value_indirect hn, h⟩

theorem closed_jumpIfFalse {s : Nat} (ha : a.Reads cell) (h : s ≤ limit) (hs : s < 2 ^ 63) :
    (jumpIfFalse a s).Closed cell limit :=
  ⟨ha, _, rfl, Operand.leadsTo_direct h hs⟩

end Instruction

/-- **A variable cell below an address,** a whole number of cells behind the first. -/
def DataCell (c : Config) (next a : Nat) : Prop := a < next ∧ ∃ k, a = c.programSize + k * c.unit

/-- **The pointers of the allocator** stay within their zones and in line. -/
structure Memory.Regular (c : Config) (m : Memory) : Prop where
  unit : m.unit = c.unit
  programSize : m.programSize = c.programSize
  tempsFrom : m.tempsFrom = c.tempsFrom
  capacity : m.capacity = c.capacity
  data : ∃ k, m.dataNext = c.programSize + k * c.unit
  data_le : m.dataNext ≤ c.tempsFrom
  temps : ∃ k, m.tempNext = c.tempsFrom + k * c.unit
  temps_le : m.tempNext ≤ c.capacity
  spare : ∀ a ∈ m.spareCells, DataCell c m.dataNext a
  size : m.program.size ≤ c.programSize

namespace Memory

variable {c : Config} {m m' : Memory} {a : Nat}

theorem regular_ofConfig (h : c.tempsFrom ≤ c.capacity) : (ofConfig c).Regular c where
  unit := rfl
  programSize := rfl
  tempsFrom := rfl
  capacity := rfl
  data := ⟨0, by simp [ofConfig, Config.cellsFrom]⟩
  data_le := Nat.le_add_right _ _
  temps := ⟨0, by simp [ofConfig]⟩
  temps_le := h
  spare := by simp [ofConfig]
  size := Nat.zero_le _

theorem Regular.from_le (hm : m.Regular c) : m.tempsFrom ≤ m.tempNext := by
  obtain ⟨k, hk⟩ := hm.temps
  rw [hk, hm.tempsFrom]
  exact Nat.le_add_right _ _

/-- **The next cell in line** is handed out as it is. -/
theorem takeNextCell_spec (hm : m.Regular c) (hu : 0 < c.unit) (h : m.takeNextCell = .ok (a, m')) :
    DataCell c m'.dataNext a ∧ m'.Regular c ∧ m.dataNext ≤ m'.dataNext ∧
      m' = { m with dataNext := m'.dataNext } := by
  rw [takeNextCell_eq] at h
  split at h
  · cases h
  · rename_i hle
    cases h
    obtain ⟨k, hk⟩ := hm.data
    have hunit := hm.unit
    have hfrom := hm.tempsFrom
    refine ⟨⟨by dsimp only; omega, k, hk⟩, ?_, Nat.le_add_right _ _, rfl⟩
    refine { hm with data := ⟨k + 1, ?_⟩, data_le := ?_, spare := ?_ }
    · dsimp only
      rw [hk, hunit, Nat.add_mul]
      omega
    · dsimp only
      omega
    · intro b hb
      exact ⟨Nat.lt_add_right _ (hm.spare b hb).1, (hm.spare b hb).2⟩

/-- **A cell for a variable** is one that was given back, or the next in line. -/
theorem takeCell_spec (hm : m.Regular c) (hu : 0 < c.unit) (h : m.takeCell = .ok (a, m')) :
    DataCell c m'.dataNext a ∧ m'.Regular c ∧ m.dataNext ≤ m'.dataNext ∧
      m' = { m with dataNext := m'.dataNext, spareCells := m'.spareCells } := by
  rw [takeCell_eq] at h
  split at h
  · rename_i cell rest hs
    cases h
    have hspare := hm.spare
    rw [hs, List.forall_mem_cons] at hspare
    exact ⟨hspare.1, { hm with spare := hspare.2 }, Nat.le_refl _, rfl⟩
  · rename_i hs
    obtain ⟨h1, h2, h3, h4⟩ := takeNextCell_spec hm hu h
    refine ⟨h1, h2, h3, ?_⟩
    rw [h4]

theorem freeCell_eq (m : Memory) (a : Nat) :
    m.freeCell a = { m with spareCells := (m.freeCell a).spareCells } := by
  unfold freeCell
  split <;> rfl

/-- Cells that are given back change nothing but the list of spare cells. -/
theorem freeCells_eq (cells : List Nat) (m : Memory) :
    cells.foldl freeCell m = { m with spareCells := (cells.foldl freeCell m).spareCells } := by
  induction cells generalizing m with
  | nil => rfl
  | cons a cells ih =>
    have hrest := ih (m.freeCell a)
    rw [freeCell_eq m a] at hrest
    rw [List.foldl_cons, freeCell_eq m a]
    exact hrest

@[simp] theorem program_freeCells (cells : List Nat) (m : Memory) :
    (cells.foldl freeCell m).program = m.program := by
  rw [freeCells_eq]

@[simp] theorem tempNext_freeCells (cells : List Nat) (m : Memory) :
    (cells.foldl freeCell m).tempNext = m.tempNext := by
  rw [freeCells_eq]

theorem Regular.freeCell (hm : m.Regular c) (ha : DataCell c m.dataNext a) :
    (m.freeCell a).Regular c := by
  unfold Memory.freeCell
  split
  · exact hm
  · exact { hm with spare := List.forall_mem_cons.2 ⟨ha, hm.spare⟩ }

/-- Cells that are given back are still cells. -/
theorem Regular.freeCells {cells : List Nat} (hm : m.Regular c)
    (hcells : ∀ a ∈ cells, DataCell c m.dataNext a) : (cells.foldl Memory.freeCell m).Regular c := by
  induction cells generalizing m with
  | nil => exact hm
  | cons a cells ih =>
    obtain ⟨ha, hrest⟩ := List.forall_mem_cons.1 hcells
    refine ih (hm.freeCell ha) ?_
    rw [freeCell_eq m a]
    exact hrest

theorem Regular.withTemp (hm : m.Regular c) (h : m.tempNext + m.unit ≤ m.capacity) :
    Regular c { m with tempNext := m.tempNext + m.unit } := by
  obtain ⟨k, hk⟩ := hm.temps
  refine { hm with temps := ⟨k + 1, ?_⟩, temps_le := ?_ }
  · dsimp only
    rw [hk, hm.unit, Nat.add_mul]
    omega
  · dsimp only
    rw [hm.capacity] at h
    exact h

/-- Only the latest temporary is taken back. -/
theorem Regular.dropTemp (hm : m.Regular c) (a : Nat) : (m.dropTemp a).Regular c := by
  unfold Memory.dropTemp isLatestTemp
  split
  · rename_i hl
    rw [Bool.and_eq_true, beq_iff_eq, decide_eq_true_eq] at hl
    obtain ⟨h1, h2⟩ := hl
    obtain ⟨k, hk⟩ := hm.temps
    have hunit := hm.unit
    have hfrom := hm.tempsFrom
    have hle := hm.temps_le
    refine { hm with temps := ⟨k - 1, ?_⟩, temps_le := ?_ }
    · dsimp only
      cases k with
      | zero => omega
      | succ k =>
        rw [Nat.add_mul] at hk
        rw [Nat.add_sub_cancel]
        omega
    · dsimp only
      omega
  · exact hm

end Memory

/-- **The slots of a program that are still empty.** -/
def Holes (program : Array (Option Instruction)) (slots : List Nat) : Prop :=
  slots.Nodup ∧ ∀ s, program[s]? = some none ↔ s ∈ slots

namespace Holes

variable {program : Array (Option Instruction)} {slots slots' : List Nat} {s : Nat}

theorem perm (h : Holes program slots) (hp : slots.Perm slots') : Holes program slots' :=
  ⟨hp.nodup_iff.1 h.1, fun s => (h.2 s).trans hp.mem_iff⟩

theorem lt_size (h : Holes program slots) (hs : s ∈ slots) : s < program.size :=
  (Array.getElem?_eq_some_iff.1 ((h.2 s).2 hs)).1

theorem push_some (h : Holes program slots) (i : Instruction) :
    Holes (program.push (some i)) slots := by
  refine ⟨h.1, fun s => ?_⟩
  rw [Array.getElem?_push]
  split
  · rename_i hs
    subst hs
    refine ⟨fun hc => by simp at hc, fun hc => ?_⟩
    exact absurd (h.lt_size hc) (Nat.lt_irrefl _)
  · exact h.2 s

theorem push_none (h : Holes program slots) : Holes (program.push none) (program.size :: slots) := by
  refine ⟨List.nodup_cons.2 ⟨fun hc => absurd (h.lt_size hc) (Nat.lt_irrefl _), h.1⟩, fun s => ?_⟩
  rw [Array.getElem?_push, List.mem_cons]
  split
  · rename_i hs
    exact ⟨fun _ => .inl hs, fun _ => rfl⟩
  · rename_i hs
    exact (h.2 s).trans ⟨.inr, fun hc => hc.resolve_left hs⟩

theorem fill (h : Holes program (s :: slots)) (i : Instruction) :
    Holes (program.setIfInBounds s (some i)) slots := by
  obtain ⟨hnot, hnodup⟩ := List.nodup_cons.1 h.1
  have hlt := h.lt_size List.mem_cons_self
  refine ⟨hnodup, fun s' => ?_⟩
  rw [Array.getElem?_setIfInBounds]
  split
  · rename_i heq
    subst heq
    simp [hnot]
  · rename_i hne
    exact (h.2 s').trans ⟨fun hc => (List.mem_cons.1 hc).resolve_left (Ne.symm hne),
      fun hc => List.mem_cons_of_mem _ hc⟩

end Holes

end OnePass.Target
