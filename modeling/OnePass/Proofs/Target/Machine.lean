import Mathlib.Logic.Function.Basic
import OnePass.Proofs.Target.Flow

/-!
# The machine that programs run on

A machine holds a word in every cell, zero at first, and prints words. It executes the
instruction in its slot and goes on behind it, or where a jump leads. It halts behind the
last slot. Words are exact integers, and are also the addresses of cells.

* `Instruction.step?`, `step?`: one step. `run?`: some steps.
* `Reaches`: a state that comes later. `Lasts`: a run of at least so many steps.
* `Program.Prints`, `Program.Halts`, `Program.Unstuck`: what a program does from the start.
* `Program.Executes`: a program that does what runs with more and more fuel do.
-/

namespace OnePass.Target

/-- What the cells hold. -/
abbrev Cells := Int → Int

/-- **A state of the machine:** the slot that is next, the cells, and what has been printed, the first
first. -/
structure State where
  slot : Nat
  cells : Cells
  output : List Int

namespace State

/-- At first all cells are zero. -/
def initial : State := ⟨0, fun _ => 0, []⟩

variable (s : State)

def goTo (slot : Nat) : State := { s with slot := slot }

/-- A word is left in a cell. -/
def write (address value : Int) : State :=
  { s with slot := s.slot + 1, cells := Function.update s.cells address value }

def printed (value : Int) : State := { s with slot := s.slot + 1, output := s.output ++ [value] }

end State

namespace Operand

variable (cells : Cells) (o : Operand)

/-- The value of an operand. -/
def read : Int :=
  match o.mode with
  | .immediate => o.value
  | .direct => cells o.value
  | .indirect => cells (cells o.value)

/-- The address that an operand names, a number names none. -/
def address? : Option Int :=
  match o.mode with
  | .immediate => none
  | .direct => some o.value
  | .indirect => some (cells o.value)

/-- The slot that an operand of a jump names. -/
def slot? : Option Nat := (o.address? cells).bind Int.toNat?

end Operand

/-- What an operation makes of two values, if it is one on values. -/
def Opcode.value? : Opcode → Int → Int → Option Int
  | .add, a, b => some (a + b)
  | .sub, a, b => some (a - b)
  | .mult, a, b => some (a * b)
  | .eq, a, b => some (if a = b then 1 else 0)
  | .lt, a, b => some (if a < b then 1 else 0)
  | _, _, _ => none

/-- **What an instruction does,** if it is one that can be executed. -/
def Instruction.step? (i : Instruction) (s : State) : Option State :=
  match i.opcode, i.second, i.third with
  | .assign, some target, none =>
    (target.address? s.cells).map fun a => s.write a (i.first.read s.cells)
  | .jumpFalse, some target, none =>
    if i.first.read s.cells = 0 then (target.slot? s.cells).map s.goTo
    else some (s.goTo (s.slot + 1))
  | .jump, none, none => (i.first.slot? s.cells).map s.goTo
  | .print, none, none => some (s.printed (i.first.read s.cells))
  | op, some right, some target => do
    let value ← op.value? (i.first.read s.cells) (right.read s.cells)
    let address ← target.address? s.cells
    return s.write address value
  | _, _, _ => none

/-- **One step of the machine.** There is none behind the last slot. -/
def step? (p : Program) (s : State) : Option State := p[s.slot]?.join.bind fun i => i.step? s

/-- The state after some steps, if there are so many. -/
def run? (p : Program) : Nat → State → Option State
  | 0, s => some s
  | n + 1, s => (step? p s).bind (run? p n)

/-- **A state that comes later,** or the same. -/
def Reaches (p : Program) (s s' : State) : Prop := ∃ n, run? p n s = some s'

/-- A run of at least so many steps, with what has been printed by then. -/
def Lasts (p : Program) (steps : Nat) (s : State) (output : List Int) : Prop :=
  ∃ n s', steps ≤ n ∧ run? p n s = some s' ∧ s'.output = output

namespace Program

variable (p : Program) (output : List Int)

/-- The program comes to print this, and perhaps more behind it. -/
def Prints : Prop := ∃ s, Reaches p .initial s ∧ output <+: s.output

/-- The program halts, having printed this. -/
def Halts : Prop := ∃ s, Reaches p .initial s ∧ s.slot = p.size ∧ s.output = output

/-- The program never comes to a slot where the machine cannot go on, but behind its end. -/
def Unstuck : Prop := ∀ s, Reaches p .initial s → s.slot = p.size ∨ (step? p s).isSome

end Program

section Step

variable {p : Program} {s s' : State} {i : Instruction} {a b : Operand} {d t : Nat}

theorem Operand.read_direct (hd : d < 2 ^ 63) (cells : Cells) :
    (Operand.direct d).read cells = cells d := by
  change cells (Operand.direct d).value = _
  rw [Operand.value_direct hd]

theorem Operand.read_indirect (hd : d < 2 ^ 63) (cells : Cells) :
    (Operand.indirect d).read cells = cells (cells d) := by
  change cells (cells (Operand.indirect d).value) = _
  rw [Operand.value_indirect hd]

theorem Operand.address?_direct (hd : d < 2 ^ 63) (cells : Cells) :
    (Operand.direct d).address? cells = some (d : Int) := by
  change some (Operand.direct d).value = _
  rw [Operand.value_direct hd]

theorem Operand.slot?_direct (ht : t < 2 ^ 63) (cells : Cells) :
    (Operand.direct t).slot? cells = some t := by
  rw [slot?, address?_direct ht, Option.bind_some]
  exact Int.mem_toNat?.2 rfl

theorem Holds.step? (h : Holds p s.slot i) : step? p s = i.step? s := by
  rw [Target.step?, h]
  rfl

/-- An assignment writes its target. -/
theorem Holds.assign (h : Holds p s.slot (.assign a (.direct d))) (hd : d < 2 ^ 63) :
    Target.step? p s = some (s.write d (a.read s.cells)) := by
  have hwrite : (Instruction.assign a (.direct d)).step? s =
      ((Operand.direct d).address? s.cells).map fun address => s.write address (a.read s.cells) := rfl
  rw [h.step?, hwrite, Operand.address?_direct hd, Option.map_some]

/-- An operation writes its result. -/
theorem Holds.binary {op : Opcode} {v : Int} (h : Holds p s.slot (.binary op a b (.direct d)))
    (hd : d < 2 ^ 63) (hv : op.value? (a.read s.cells) (b.read s.cells) = some v) :
    Target.step? p s = some (s.write d v) := by
  have hwrite : (Instruction.binary op a b (.direct d)).step? s =
      ((op.value? (a.read s.cells) (b.read s.cells)).bind fun value =>
        ((Operand.direct d).address? s.cells).bind fun address => some (s.write address value)) := by
    cases op <;> rfl
  rw [h.step?, hwrite, hv, Operand.address?_direct hd, Option.bind_some, Option.bind_some]

theorem Holds.jump (h : Holds p s.slot (.jump t)) (ht : t < 2 ^ 63) :
    Target.step? p s = some (s.goTo t) := by
  have hgo : (Instruction.jump t).step? s = ((Operand.direct t).slot? s.cells).map s.goTo := rfl
  rw [h.step?, hgo, Operand.slot?_direct ht, Option.map_some]

/-- A condition is met unless it is zero. -/
theorem Holds.jumpIfFalse (h : Holds p s.slot (.jumpIfFalse a t)) (ht : t < 2 ^ 63) :
    Target.step? p s = some (s.goTo (if a.read s.cells = 0 then t else s.slot + 1)) := by
  have hgo : (Instruction.jumpIfFalse a t).step? s = if a.read s.cells = 0 then
      ((Operand.direct t).slot? s.cells).map s.goTo else some (s.goTo (s.slot + 1)) := rfl
  rw [h.step?, hgo, Operand.slot?_direct ht, Option.map_some]
  split <;> rfl

/-- A jump through a cell leads to the slot that is stored there. -/
theorem Holds.jumpThrough (h : Holds p s.slot (.jumpThrough d)) (hd : d < 2 ^ 63)
    (ht : s.cells d = t) : Target.step? p s = some (s.goTo t) := by
  have hgo : (Instruction.jumpThrough d).step? s =
      (s.cells (Operand.indirect d).value).toNat?.map s.goTo := rfl
  rw [h.step?, hgo, Operand.value_indirect hd, ht, Int.mem_toNat?.2 rfl, Option.map_some]

theorem Holds.print (h : Holds p s.slot (.print a)) :
    Target.step? p s = some (s.printed (a.read s.cells)) := h.step?

/-- There is no step behind the last slot. -/
theorem step?_end (h : s.slot = p.size) : step? p s = none := by
  rw [step?, h, Array.getElem?_eq_none (Nat.le_refl _)]
  rfl

/-- What has been printed stays. -/
theorem output_step? (h : step? p s = some s') : s.output <+: s'.output := by
  obtain ⟨i, -, h⟩ := Option.bind_eq_some_iff.1 h
  unfold Instruction.step? at h
  split at h
  · obtain ⟨_, -, rfl⟩ := Option.map_eq_some_iff.1 h
    exact List.prefix_rfl
  · split at h
    · obtain ⟨_, -, rfl⟩ := Option.map_eq_some_iff.1 h
      exact List.prefix_rfl
    · cases h
      exact List.prefix_rfl
  · obtain ⟨_, -, rfl⟩ := Option.map_eq_some_iff.1 h
    exact List.prefix_rfl
  · cases h
    exact List.prefix_append _ _
  · obtain ⟨_, -, h⟩ := Option.bind_eq_some_iff.1 h
    obtain ⟨_, -, h⟩ := Option.bind_eq_some_iff.1 h
    cases h
    exact List.prefix_rfl
  · cases h

end Step

section Run

variable {p : Program} {s s' s'' : State} {n m : Nat} {output : List Int}

theorem run?_add (h : run? p n s = some s') : run? p (n + m) s = run? p m s' := by
  induction n generalizing s with
  | zero =>
    cases h
    rw [Nat.zero_add]
  | succ n ih =>
    obtain ⟨s₁, hs, h⟩ := Option.bind_eq_some_iff.1 h
    rw [Nat.add_right_comm, run?, hs, Option.bind_some, ih h]

theorem Reaches.refl (p : Program) (s : State) : Reaches p s s := ⟨0, rfl⟩

theorem Reaches.trans (h : Reaches p s s') (h' : Reaches p s' s'') : Reaches p s s'' := by
  obtain ⟨n, h⟩ := h
  obtain ⟨m, h'⟩ := h'
  exact ⟨n + m, (run?_add h).trans h'⟩

theorem Reaches.step (h : step? p s = some s') (h' : Reaches p s' s'') : Reaches p s s'' := by
  obtain ⟨n, h'⟩ := h'
  exact ⟨n + 1, by rw [run?, h, Option.bind_some, h']⟩

theorem Reaches.single (h : step? p s = some s') : Reaches p s s' := .step h (.refl p s')

/-- What comes before a run makes it longer. -/
theorem Lasts.before (h : Reaches p s s') (hl : Lasts p n s' output) : Lasts p n s output := by
  obtain ⟨k, h⟩ := h
  obtain ⟨m, s₁, hle, hm, hout⟩ := hl
  exact ⟨k + m, s₁, by omega, (run?_add h).trans hm, hout⟩

theorem Lasts.mono (h : Lasts p n s output) (hle : m ≤ n) : Lasts p m s output := by
  obtain ⟨k, s₁, hk, hrun, hout⟩ := h
  exact ⟨k, s₁, Nat.le_trans hle hk, hrun, hout⟩

theorem Lasts.step (h : step? p s = some s') (hl : Lasts p n s' output) :
    Lasts p (n + 1) s output := by
  obtain ⟨m, s₁, hle, hm, hout⟩ := hl
  exact ⟨m + 1, s₁, by omega, by rw [run?, h, Option.bind_some, hm], hout⟩

theorem output_run? (h : run? p n s = some s') : s.output <+: s'.output := by
  induction n generalizing s with
  | zero =>
    cases h
    exact List.prefix_rfl
  | succ n ih =>
    obtain ⟨s₁, hs, h⟩ := Option.bind_eq_some_iff.1 h
    exact (output_step? hs).trans (ih h)

/-- **The machine is deterministic:** a run that is no longer is the beginning of the other. -/
theorem run?_sub (h : run? p n s = some s') (h' : run? p m s = some s'') (hle : n ≤ m) :
    run? p (m - n) s' = some s'' := by
  rw [← run?_add h, Nat.add_sub_cancel' hle]
  exact h'

/-- A run comes to nothing else behind a state in which the machine has halted. -/
theorem le_of_halted (h : run? p n s = some s') (hend : s'.slot = p.size)
    (h' : run? p m s = some s'') : m ≤ n := by
  by_contra hlt
  have hrest := run?_sub h h' (Nat.le_of_not_le hlt)
  obtain ⟨k, hk⟩ : ∃ k, m - n = k + 1 := ⟨m - n - 1, by omega⟩
  rw [hk, run?, step?_end hend] at hrest
  cases hrest

/-- Where a run goes on, there is a step. -/
theorem isSome_step? (h : run? p n s = some s') (h' : run? p m s = some s'') (hlt : n < m) :
    (step? p s').isSome := by
  have hrest := run?_sub h h' (Nat.le_of_lt hlt)
  obtain ⟨k, hk⟩ : ∃ k, m - n = k + 1 := ⟨m - n - 1, by omega⟩
  rw [hk, run?] at hrest
  obtain ⟨s₁, hs₁, -⟩ := Option.bind_eq_some_iff.1 hrest
  rw [hs₁]
  rfl

end Run

/-- **A program executes runs with more and more fuel.** It halts where such a run ends, and lasts as
long as there is fuel where it does not. -/
structure Program.Executes (p : Program) (ended : Nat → Bool) (output : Nat → List Int) : Prop where
  halts : ∀ fuel, ended fuel = true → p.Halts (output fuel)
  lasts : ∀ fuel, ended fuel = false → Lasts p fuel .initial (output fuel)

namespace Program.Executes

variable {p : Program} {ended : Nat → Bool} {output : Nat → List Int} {n : Nat} {s : State}

/-- **Every run of the machine is part of one with enough fuel.** -/
theorem exists_later (h : p.Executes ended output) (hs : run? p n .initial = some s) :
    ∃ fuel m s', n ≤ m ∧ run? p m .initial = some s' ∧ s'.output = output fuel ∧
      if ended fuel then s'.slot = p.size else n < m := by
  cases he : ended (n + 1) with
  | true =>
    obtain ⟨s', ⟨m, hm⟩, hend, hout⟩ := h.halts _ he
    refine ⟨n + 1, m, s', le_of_halted hm hend hs, hm, hout, ?_⟩
    rw [he, if_pos rfl]
    exact hend
  | false =>
    obtain ⟨m, s', hle, hm, hout⟩ := h.lasts _ he
    refine ⟨n + 1, m, s', Nat.le_of_lt hle, hm, hout, ?_⟩
    rw [he, if_neg (by simp)]
    exact hle

/-- **It never gets stuck.** -/
theorem unstuck (h : p.Executes ended output) : p.Unstuck := by
  rintro s ⟨n, hs⟩
  obtain ⟨fuel, m, s', hle, hm, -, hend⟩ := h.exists_later hs
  rcases Nat.eq_or_lt_of_le hle with rfl | hlt
  · rw [hs] at hm
    cases hm
    split at hend
    · exact .inl hend
    · exact absurd hend (Nat.lt_irrefl _)
  · exact .inr (isSome_step? hs hm hlt)

/-- **It halts just when a run ends,** having printed the same. -/
theorem halts_iff (h : p.Executes ended output) {out : List Int} :
    p.Halts out ↔ ∃ fuel, ended fuel = true ∧ output fuel = out := by
  constructor
  · rintro ⟨s, ⟨n, hs⟩, hend, rfl⟩
    obtain ⟨fuel, m, s', hle, hm, hout, hended⟩ := h.exists_later hs
    obtain rfl : m = n := Nat.le_antisymm (le_of_halted hs hend hm) hle
    rw [hs] at hm
    cases hm
    refine ⟨fuel, ?_, hout.symm⟩
    by_contra hne
    rw [if_neg hne] at hended
    exact Nat.lt_irrefl _ hended
  · rintro ⟨fuel, he, rfl⟩
    exact h.halts fuel he

/-- **It prints what runs print,** as far as they get. -/
theorem prints_iff (h : p.Executes ended output) {out : List Int} :
    p.Prints out ↔ ∃ fuel, out <+: output fuel := by
  constructor
  · rintro ⟨s, ⟨n, hs⟩, hprefix⟩
    obtain ⟨fuel, m, s', hle, hm, hout, -⟩ := h.exists_later hs
    exact ⟨fuel, hprefix.trans (hout ▸ output_run? (run?_sub hs hm hle))⟩
  · rintro ⟨fuel, hprefix⟩
    cases he : ended fuel with
    | true =>
      obtain ⟨s, hs, -, hout⟩ := h.halts fuel he
      exact ⟨s, hs, hout ▸ hprefix⟩
    | false =>
      obtain ⟨n, s, -, hs, hout⟩ := h.lasts fuel he
      exact ⟨s, ⟨n, hs⟩, hout ▸ hprefix⟩

end Program.Executes

end OnePass.Target
