import OnePass.Proofs.Target.Activations

/-!
# Code that spares return cells

Code is appended, and slots that are reserved are filled. The return cells of functions are
written by calls only, and a call is a store with its jump right behind, which nothing else leads
to. A cell that is idle is not written at all: it is not in use, or its function is not known yet.

* `Lands`: a slot that jumps may lead to. `Writable`: a cell that code may write.
* `Admits`: an instruction that may be put into a program.
* `Guarded`: **return cells are written by calls only.** `Guarded.push`, `Guarded.fill`,
  `Guarded.call` keep it so.
-/

namespace OnePass.Target

open Emission Names

variable {functions functions' : FunctionInfo → Prop} {idle idle' : Nat → Prop} {p : Program}
  {i : Instruction} {slot? : Option Instruction} {k t a slack slack' : Nat} {f : FunctionInfo}

theorem holds_push_iff :
    Holds (p.push slot?) k i ↔ Holds p k i ∨ (k = p.size ∧ slot? = some i) := by
  unfold Holds
  rw [Array.getElem?_push]
  split
  · rename_i hk
    subst hk
    simp
  · rename_i hk
    simp [hk]

theorem Holds.lt_size (h : Holds p k i) : k < p.size := (Array.getElem?_eq_some_iff.1 h).1

theorem holds_fill {slot : Nat} {j : Instruction} (h : Holds (p.setIfInBounds slot (some j)) k i) :
    Holds p k i ∨ (k = slot ∧ j = i) := by
  unfold Holds at h
  rw [Array.getElem?_setIfInBounds] at h
  split at h
  · rename_i hk
    split at h
    · cases h
      exact .inr ⟨hk.symm, rfl⟩
    · cases h
  · exact .inl h

/-- **A slot that jumps may lead to:** no return cell is written right before it. -/
def Lands (functions : FunctionInfo → Prop) (p : Program) (t : Nat) : Prop :=
  ∀ f k i, functions f → Holds p k i → i.WritesTo f.returnCell → t ≠ k + 1

/-- **A cell that code may write:** one in use that is no return cell. -/
structure Writable (functions : FunctionInfo → Prop) (idle : Nat → Prop) (a : Nat) : Prop where
  small : a < 2 ^ 63
  function : ∀ f, functions f → f.returnCell ≠ a
  idle : ¬idle a

/-- **An instruction that may be put into a program,** with so many slots to come. -/
structure Admits (functions : FunctionInfo → Prop) (idle : Nat → Prop) (p : Program) (slack : Nat)
    (i : Instruction) : Prop where
  shaped : i.Shaped
  writes : ∀ a, i.WritesTo a → Writable functions idle a
  leads : ∀ t, i.jumpTarget? = some t → t ≤ p.size + slack ∧ Lands functions p t

/-- **Return cells are written by calls only,** idle cells not at all, and no jump leads to that of a
call, also with so many slots to come. -/
structure Guarded (functions : FunctionInfo → Prop) (idle : Nat → Prop) (slack : Nat) (p : Program) :
    Prop where
  shaped : ∀ k i, Holds p k i → i.Shaped
  stores : ∀ f k i, functions f → Holds p k i → i.WritesTo f.returnCell → Calls p k f
  idle : ∀ k i a, Holds p k i → i.WritesTo a → ¬idle a
  leads : ∀ k t, Leads p k t → t ≤ p.size + slack ∧ Lands functions p t

theorem Writable.mono (h : Writable functions idle a) (hidle : ∀ a, idle' a → idle a) :
    Writable functions idle' a where
  small := h.small
  function := h.function
  idle hc := h.idle (hidle a hc)

/-- What is appended comes behind whatever has been written. -/
theorem Lands.push (h : Lands functions p t) (ht : t ≤ p.size) :
    Lands functions (p.push slot?) t := by
  rintro f k i hf hi hw rfl
  rcases holds_push_iff.1 hi with hi | ⟨rfl, -⟩
  · exact h f k i hf hi hw rfl
  · exact Nat.not_succ_le_self _ ht

/-- What is filled in writes nothing. -/
theorem Lands.fill {slot : Nat} (h : Lands functions p t) (hi : i.target? = none) :
    Lands functions (p.setIfInBounds slot (some i)) t := by
  rintro f k j hf hj hw
  rcases holds_fill hj with hj | ⟨rfl, rfl⟩
  · exact h f k j hf hj hw
  · exact absurd hw (Instruction.not_writesTo hi)

/-- A program without instructions. -/
theorem guarded_empty : Guarded functions idle slack #[] where
  shaped _ _ h := absurd h.lt_size (Nat.not_lt_zero _)
  stores _ _ _ _ h := absurd h.lt_size (Nat.not_lt_zero _)
  idle _ _ _ h := absurd h.lt_size (Nat.not_lt_zero _)
  leads _ _ h := absurd h.choose_spec.1.lt_size (Nat.not_lt_zero _)

namespace Guarded

theorem mono (h : Guarded functions idle slack p) (hidle : ∀ a, idle' a → idle a)
    (hle : slack ≤ slack') : Guarded functions idle' slack' p where
  shaped := h.shaped
  stores := h.stores
  idle k i a hi hw hc := h.idle k i a hi hw (hidle a hc)
  leads k t hl := (h.leads k t hl).imp_left fun ht => Nat.le_trans ht (Nat.add_le_add_left hle _)

/-- **A jump may lead behind the program:** a call has its jump in it. -/
theorem lands (h : Guarded functions idle slack p) (ht : p.size ≤ t) : Lands functions p t := by
  rintro f k i hf hi hw rfl
  have hcalls := (h.stores f k i hf hi hw).2
  have hlt := Holds.lt_size hcalls
  omega

/-- **An instruction is appended,** or a slot is reserved. -/
theorem push (h : Guarded functions idle (slack + 1) p)
    (hi : ∀ i, slot? = some i → Admits functions idle p (slack + 1) i) :
    Guarded functions idle slack (p.push slot?) where
  shaped k i hk := by
    rcases holds_push_iff.1 hk with hk | ⟨-, hs⟩
    · exact h.shaped k i hk
    · exact (hi i hs).shaped
  stores f k i hf hk hw := by
    rcases holds_push_iff.1 hk with hk | ⟨-, hs⟩
    · have hext : Extends (fun _ => True) p (p.push slot?) := .push fun _ _ => trivial
      exact (h.stores f k i hf hk hw).mono hext
    · exact absurd rfl (((hi i hs).writes _ hw).function f hf)
  idle k i a hk hw := by
    rcases holds_push_iff.1 hk with hk | ⟨-, hs⟩
    · exact h.idle k i a hk hw
    · exact ((hi i hs).writes a hw).idle
  leads k t := by
    rintro ⟨i, hk, ht⟩
    have hbound : t ≤ p.size + (slack + 1) ∧ Lands functions p t := by
      rcases holds_push_iff.1 hk with hk | ⟨-, hs⟩
      · exact h.leads k t ⟨i, hk, ht⟩
      · exact (hi i hs).leads t ht
    refine ⟨by rw [Array.size_push]; omega, fun f k' j hf hj hw => ?_⟩
    rcases holds_push_iff.1 hj with hj | ⟨-, hs⟩
    · exact hbound.2 f k' j hf hj hw
    · exact absurd rfl (((hi j hs).writes _ hw).function f hf)

/-- **A slot that is reserved is filled** with an instruction that writes nothing. -/
theorem fill {slot : Nat} (h : Guarded functions idle slack p) (hs : p[slot]? = some none)
    (hi : Admits functions idle p slack i) (hnone : i.target? = none) :
    Guarded functions idle slack (p.setIfInBounds slot (some i)) where
  shaped k j hj := by
    rcases holds_fill hj with hj | ⟨-, rfl⟩
    · exact h.shaped k j hj
    · exact hi.shaped
  stores f k j hf hj hw := by
    rcases holds_fill hj with hj | ⟨-, rfl⟩
    · have hext : Extends (fun _ => True) p (p.setIfInBounds slot (some i)) := .fill hs trivial
      exact (h.stores f k j hf hj hw).mono hext
    · exact absurd hw (Instruction.not_writesTo hnone)
  idle k j a hj hw := by
    rcases holds_fill hj with hj | ⟨-, rfl⟩
    · exact h.idle k j a hj hw
    · exact absurd hw (Instruction.not_writesTo hnone)
  leads k t := by
    rintro ⟨j, hj, ht⟩
    rw [Array.size_setIfInBounds]
    rcases holds_fill hj with hj | ⟨-, rfl⟩
    · exact (h.leads k t ⟨j, hj, ht⟩).imp_right fun hl => hl.fill hnone
    · exact (hi.leads t ht).imp_right fun hl => hl.fill hnone

/-- **A call is appended:** the store and the jump behind it. -/
theorem call (h : Guarded functions idle 0 p) (hsmall : f.returnCell < 2 ^ 63)
    (hword : f.start < 2 ^ 63)
    (hunique : ∀ f', functions f' → f.returnCell = f'.returnCell → f = f')
    (hidle : ¬idle f.returnCell) (hstart : f.start ≤ p.size) (hlands : Lands functions p f.start) :
    Guarded functions idle 0
      ((p.push (some (.assign (.immediate (p.size + 2)) (.direct f.returnCell)))).push
        (some (.jump f.start))) := by
  have hwrites : ∀ {a : Nat}, (Instruction.assign (.immediate (p.size + 2))
      (.direct f.returnCell)).WritesTo a → a = f.returnCell := fun hw => by
    have hvalue := (Instruction.writesTo_assign.1 hw).2
    rw [Operand.value_direct hsmall] at hvalue
    exact (Int.natCast_inj.1 hvalue).symm
  -- each slot holds what it held, the store or the jump
  have hcases : ∀ {k i}, Holds ((p.push (some (.assign (.immediate (p.size + 2))
      (.direct f.returnCell)))).push (some (.jump f.start))) k i → Holds p k i ∨
        (k = p.size ∧ i = .assign (.immediate (p.size + 2)) (.direct f.returnCell)) ∨
          i = .jump f.start := fun hk => by
    rcases holds_push_iff.1 hk with hk | ⟨-, hs⟩
    · rcases holds_push_iff.1 hk with hk | ⟨rfl, hs⟩
      · exact .inl hk
      · exact .inr (.inl ⟨rfl, (Option.some.inj hs).symm⟩)
    · exact .inr (.inr (Option.some.inj hs).symm)
  have hjump : (Instruction.jump f.start).target? = none := rfl
  refine ⟨fun k i hk => ?_, fun f' k i hf' hk hw => ?_, fun k i a hk hw => ?_, ?_⟩
  · rcases hcases hk with hk | ⟨-, rfl⟩ | rfl
    · exact h.shaped k i hk
    · exact .plain (Instruction.plain_assign _ _)
    · exact .jump _
  · rcases hcases hk with hk | ⟨rfl, rfl⟩ | rfl
    · have hext : ∀ (q : Program) i, Extends (fun _ => True) q (q.push (some i)) := fun _ _ =>
        .push_some trivial
      exact ((h.stores f' k i hf' hk hw).mono (hext _ _)).mono (hext _ _)
    · obtain rfl := hunique f' hf' (hwrites hw).symm
      exact calls_push p f
    · exact absurd hw (Instruction.not_writesTo hjump)
  · rcases hcases hk with hk | ⟨-, rfl⟩ | rfl
    · exact h.idle k i a hk hw
    · exact hwrites hw ▸ hidle
    · exact absurd hw (Instruction.not_writesTo hjump)
  · rintro k t ⟨i, hk, ht⟩
    have hbound : t ≤ p.size ∧ Lands functions p t := by
      rcases hcases hk with hk | ⟨-, rfl⟩ | rfl
      · exact h.leads k t ⟨i, hk, ht⟩
      · rw [(Instruction.plain_assign _ _).jumpTarget?] at ht
        cases ht
      · rw [Instruction.jumpTarget?_jump hword] at ht
        cases ht
        exact ⟨hstart, hlands⟩
    refine ⟨by simp only [Array.size_push]; omega, ?_⟩
    exact (hbound.2.push hbound.1).push (by rw [Array.size_push]; omega)

end Guarded

end OnePass.Target
