import OnePass.Proofs.Emission.Resolving
import OnePass.Proofs.Target.Flow
import OnePass.Proofs.Target.Machine

/-!
# The copies of arguments

The code that leads into a function copies the arguments into the cells of its parameters, one after
the other. Each copy reads what those before it have left, so that an argument which reads a
parameter copied before it gets the new value. Where none does, all copies act at once.

* `copied`: the cells behind copies. `copies_run`: **what the machine makes of them.**
* `Operand.Mentions`: the cells that an operand reads.
* `copied_param`: **copies act at once** where none of them reads what is written before it.
* `arguments_copied`: the arguments of a call.
-/

namespace OnePass.Target

open Emission (entryCode)
open Names (FunctionInfo)

/-- **The cells behind copies** of operands into cells, one after the other. -/
def copied (cells : Cells) : List (Operand × Nat) → Cells
  | [] => cells
  | (o, d) :: rest => copied (Function.update cells d (o.read cells)) rest

/-- The cells that an operand reads: the one that it names, and the one whose address that holds. -/
def Operand.Mentions (cells : Cells) (o : Operand) (a : Int) : Prop :=
  match o.mode with
  | .immediate => False
  | .direct => o.value = a
  | .indirect => o.value = a ∨ cells o.value = a

section Copies

variable {p : Program} {s : State} {cells : Cells} {o : Operand} {a v : Int} {d k : Nat}
  {copies : List (Operand × Nat)}

/-- An operand keeps its value, and reads the same cells, where others are written. -/
theorem Operand.read_update (h : ¬o.Mentions cells a) :
    o.read (Function.update cells a v) = o.read cells ∧
      ∀ b, o.Mentions (Function.update cells a v) b ↔ o.Mentions cells b := by
  obtain ⟨mode, value⟩ := o
  cases mode with
  | immediate => exact ⟨rfl, fun _ => Iff.rfl⟩
  | direct =>
    have hvalue : value ≠ a := h
    exact ⟨Function.update_of_ne hvalue _ _, fun _ => Iff.rfl⟩
  | indirect =>
    obtain ⟨hvalue, hholds⟩ : value ≠ a ∧ cells value ≠ a := not_or.1 h
    have hsame : Function.update cells a v value = cells value := Function.update_of_ne hvalue _ _
    refine ⟨?_, fun b => ?_⟩
    · change Function.update cells a v (Function.update cells a v value) = cells (cells value)
      rw [hsame, Function.update_of_ne hholds]
    · change value = b ∨ Function.update cells a v value = b ↔ value = b ∨ cells value = b
      rw [hsame]

/-- A cell that nothing is copied into stays as it is. -/
theorem copied_of_not_mem (h : d ∉ copies.map (·.2)) : copied cells copies d = cells d := by
  induction copies generalizing cells with
  | nil => rfl
  | cons copy rest ih =>
    rw [List.map_cons, List.mem_cons, not_or] at h
    rw [copied, ih h.2, Function.update_of_ne (Int.natCast_inj.not.2 h.1)]

/-- **Copies act at once,** each into a cell of its own, where none reads what is written before
it. -/
theorem copied_param (hcells : (copies.map (·.2)).Nodup)
    (happart : copies.Pairwise fun before after => ¬after.1.Mentions cells before.2)
    (h : (o, d) ∈ copies) : copied cells copies d = o.read cells := by
  induction copies generalizing cells with
  | nil => cases h
  | cons copy rest ih =>
    obtain ⟨hfresh, hrest⟩ := List.nodup_cons.1 hcells
    obtain ⟨hfirst, hothers⟩ := List.pairwise_cons.1 happart
    rw [copied]
    rcases List.mem_cons.1 h with rfl | hmem
    · rw [copied_of_not_mem hfresh, Function.update_self]
    · -- the others read the same behind the first copy as before it
      have hkept := fun after hafter =>
        Operand.read_update (v := copy.1.read cells) (hfirst after hafter)
      refine (ih hrest ?_ hmem).trans (hkept _ hmem).1
      refine hothers.imp_of_mem fun _ hafter hnot => ?_
      rwa [(hkept _ hafter).2]

/-- **The machine runs copies** one after the other. -/
theorem copies_run (hcells : ∀ copy ∈ copies, copy.2 < 2 ^ 63)
    (h : Stretch p s.slot (copies.map fun copy => .assign copy.1 (.direct copy.2))) :
    Reaches p s ⟨s.slot + copies.length, copied s.cells copies, s.output⟩ := by
  induction copies generalizing s with
  | nil => exact .refl p s
  | cons copy rest ih =>
    obtain ⟨hcell, hrest⟩ := List.forall_mem_cons.1 hcells
    have hholds : Holds p s.slot (.assign copy.1 (.direct copy.2)) := h 0 _ rfl
    have hlast := ih (s := s.write copy.2 (copy.1.read s.cells)) hrest h.tail
    rw [List.length_cons, Nat.add_comm rest.length, ← Nat.add_assoc]
    exact .step (hholds.assign hcell) hlast

/-- **The arguments of a call are copied** into the parameters of the function. Each parameter comes to
hold what its argument was before, if no argument reads a parameter that is copied before its own. -/
theorem arguments_copied {info : FunctionInfo} {arguments : List Operand} {next : Nat}
    (h : Stretch p s.slot (entryCode info arguments next))
    (hcount : arguments.length = info.params.length) (hparams : info.params.Nodup)
    (hcells : ∀ d ∈ info.params, d < 2 ^ 63)
    (happart : (arguments.zip info.params).Pairwise
      fun before after => ¬after.1.Mentions s.cells before.2) :
    ∃ s', Reaches p s s' ∧ s'.slot = s.slot + arguments.length ∧ s'.output = s.output ∧
      ∀ (k : Nat) (o : Operand) (d : Nat), arguments[k]? = some o → info.params[k]? = some d →
        s'.cells d = o.read s.cells := by
  have hcopies : Stretch p s.slot ((arguments.zip info.params).map fun copy =>
      .assign copy.1 (.direct copy.2)) := fun k i hi =>
    h k i (by rw [entryCode, List.getElem?_append_left (List.getElem?_eq_some_iff.1 hi).1, hi])
  have hfresh : ((arguments.zip info.params).map (·.2)).Nodup := by
    rwa [List.map_snd_zip hcount.ge]
  have hlength : (arguments.zip info.params).length = arguments.length := by
    rw [List.length_zip, ← hcount, Nat.min_self]
  have hruns := copies_run (fun copy hcopy => hcells _ (List.of_mem_zip hcopy).2) hcopies
  rw [hlength] at hruns
  refine ⟨_, hruns, rfl, rfl, fun k o d ho hd => ?_⟩
  exact copied_param hfresh happart (List.mem_of_getElem? (List.getElem?_zip_eq_some.2 ⟨ho, hd⟩))

end Copies

end OnePass.Target
