import OnePass.Proofs.Emission.Ends

/-!
# Steps that only stop at a full zone

A step ends in a result or stops with a failure. The failures that a full zone of the
memory image brings about are allowed for, and for the state they leave behind a property
is kept. Any other failure has to be ruled out.

* `Failure.IsFull`: a failure over a full zone.
* `Secure`: what holds where a step ends and what holds where it stops. `secure_bind` and
  the others: the steps it is made of.
* `secure_emit`, `secure_settle`, …: the operations of the memory image.
-/

namespace OnePass

open Target

/-- **A zone of the memory image is full.** -/
def Failure.IsFull (e : Failure) : Prop := ∃ zone limit, e = .memory (.exhausted zone limit)

namespace Emission

/-- **What holds where a step ends, and where it stops.** It stops at a full zone only. -/
def Secure (P : Generator → Prop) {α : Type} (x : Emit α) (g : Generator)
    (Q : α → Generator → Prop) : Prop :=
  match x g with
  | .ok a g' => Q a g'
  | .error e g' => e.IsFull ∧ P g'

section Secure

variable {α β : Type} {P : Generator → Prop} {g : Generator} {Q : α → Generator → Prop}

theorem Secure.mono {x : Emit α} {R : α → Generator → Prop} (h : Secure P x g R)
    (hRQ : ∀ a g', R a g' → Q a g') : Secure P x g Q := by
  unfold Secure at h ⊢
  split
  · rename_i hx
    rw [hx] at h
    exact hRQ _ _ h
  · rename_i hx
    rw [hx] at h
    exact h

theorem Secure.ends {x : Emit α} (h : Secure P x g Q) : Ends x g Q := by
  intro a g' hx
  rw [Secure, hx] at h
  exact h

theorem Secure.error {x : Emit α} (h : Secure P x g Q) {e : Failure} {g' : Generator}
    (hx : x g = .error e g') : e.IsFull ∧ P g' := by
  rw [Secure, hx] at h
  exact h

@[simp] theorem secure_pure (a : α) : Secure P (pure a) g Q ↔ Q a g := Iff.rfl

@[simp] theorem secure_bind {x : Emit α} {f : α → Emit β} {R : β → Generator → Prop} :
    Secure P (x >>= f) g R ↔ Secure P x g fun a g₁ => Secure P (f a) g₁ R := by
  unfold Secure
  change (match EStateM.bind x f g with
    | .ok a g' => R a g'
    | .error e g' => e.IsFull ∧ P g') ↔ _
  unfold EStateM.bind
  cases x g <;> rfl

@[simp] theorem secure_get {Q : Generator → Generator → Prop} : Secure P get g Q ↔ Q g g := Iff.rfl

@[simp] theorem secure_modify {f : Generator → Generator} {Q : Unit → Generator → Prop} :
    Secure P (modify f) g Q ↔ Q () (f g) := Iff.rfl

@[simp] theorem secure_modifyGet {f : Generator → α × Generator} :
    Secure P (modifyGet f) g Q ↔ Q (f g).1 (f g).2 := Iff.rfl

@[simp] theorem secure_report {line : Nat} {fault : SemanticFault}
    {Q : Unit → Generator → Prop} :
    Secure P (report line fault) g Q ↔ Q () (g.report line fault) := Iff.rfl

@[simp] theorem secure_push {o : Operand} {Q : Unit → Generator → Prop} :
    Secure P (push o) g Q ↔ Q () (g.push o) := Iff.rfl

@[simp] theorem secure_pop {Q : Operand → Generator → Prop} :
    Secure P pop g Q ↔ Q g.pop.1 g.pop.2 := Iff.rfl

@[simp] theorem secure_takeValue {line : Nat} {Q : Operand → Generator → Prop} :
    Secure P (takeValue line) g Q ↔ Q (g.takeValue line).1 (g.takeValue line).2 := Iff.rfl

@[simp] theorem secure_dropTemp {cell : Nat} {Q : Unit → Generator → Prop} :
    Secure P (dropTemp cell) g Q ↔ Q () (g.dropTemp cell) := Iff.rfl

@[simp] theorem secure_discard {x : Emit α} {Q : Unit → Generator → Prop} :
    Secure P (discard x) g Q ↔ Secure P x g fun _ g₁ => Q () g₁ := by
  change Secure P (x >>= fun _ => pure ()) g Q ↔ _
  rw [secure_bind]
  rfl

/-- A loop over a list keeps what each of its steps keeps. -/
theorem secure_forM {γ : Type} {f : γ → Emit Unit} {I : Generator → Prop} {items : List γ}
    (hg : I g) (h : ∀ x ∈ items, ∀ g, I g → Secure P (f x) g fun _ g₁ => I g₁) :
    Secure P (items.forM f) g fun _ g₁ => I g₁ := by
  induction items generalizing g with
  | nil => exact hg
  | cons x items ih =>
    change Secure P (f x >>= fun _ => items.forM f) g _
    rw [secure_bind]
    refine (h x List.mem_cons_self g hg).mono fun _ g₁ hg₁ => ?_
    exact ih hg₁ fun y hy => h y (List.mem_cons_of_mem _ hy)

end Secure

section Memory

variable {α : Type} {P : Generator → Prop} {g : Generator} {Q : α → Generator → Prop}

/-- An operation of the memory image that only fails where a zone is full. -/
theorem secure_onMemory {op : Memory → Except MemoryError (α × Memory)} (hP : P g)
    (hfull : ∀ e, op g.memory = .error e → ∃ zone limit, e = .exhausted zone limit)
    (hQ : ∀ a m, op g.memory = .ok (a, m) → Q a { g with memory := m }) :
    Secure P (onMemory op) g Q := by
  unfold Secure onMemory
  cases hop : op g.memory with
  | ok r => exact hQ r.1 r.2 hop
  | error e =>
    obtain ⟨zone, limit, rfl⟩ := hfull e hop
    exact ⟨⟨zone, limit, rfl⟩, hP⟩

theorem secure_appendSlot {content : Option Instruction} {Q : Nat → Generator → Prop} (hP : P g)
    (hQ : Q g.programNext (g.append content)) :
    Secure P (onMemory (·.appendSlot content)) g Q := by
  refine secure_onMemory hP (fun e he => ?_) fun a m ha => ?_
  · rw [Memory.appendSlot_eq] at he
    split at he
    · cases he
      exact ⟨_, _, rfl⟩
    · cases he
  · rw [Memory.appendSlot_eq] at ha
    split at ha
    · cases ha
    · cases ha
      exact hQ

theorem secure_emitAt {i : Instruction} {Q : Nat → Generator → Prop} (hP : P g)
    (hQ : Q g.programNext (g.append (some i))) : Secure P (emitAt i) g Q :=
  secure_appendSlot hP hQ

theorem secure_emit {i : Instruction} {Q : Unit → Generator → Prop} (hP : P g)
    (hQ : Q () (g.append (some i))) : Secure P (emit i) g Q :=
  secure_discard.2 (secure_emitAt hP hQ)

theorem secure_reserve {Q : Nat → Generator → Prop} (hP : P g)
    (hQ : Q g.programNext (g.append none)) : Secure P (onMemory (·.reserve)) g Q :=
  secure_appendSlot hP hQ

theorem full_of_takeNextCell {m : Memory} {e : MemoryError} (h : m.takeNextCell = .error e) :
    ∃ zone limit, e = .exhausted zone limit := by
  rw [Memory.takeNextCell_eq] at h
  split at h
  · cases h
    exact ⟨_, _, rfl⟩
  · cases h

theorem secure_takeNextCell {Q : Nat → Generator → Prop} (hP : P g)
    (hQ : ∀ cell m, Q cell { g with memory := m }) :
    Secure P (onMemory (·.takeNextCell)) g Q :=
  secure_onMemory hP (fun _ => full_of_takeNextCell) fun cell m _ => hQ cell m

theorem secure_takeCell {Q : Nat → Generator → Prop} (hP : P g)
    (hQ : ∀ cell m, Q cell { g with memory := m }) :
    Secure P (onMemory (·.takeCell)) g Q := by
  refine secure_onMemory hP (fun e he => ?_) fun cell m _ => hQ cell m
  rw [Memory.takeCell_eq] at he
  split at he
  · cases he
  · exact full_of_takeNextCell he

theorem secure_freshTemp {Q : Nat → Generator → Prop} (hP : P g)
    (hQ : Q g.memory.tempNext g.withTemp) : Secure P freshTemp g Q := by
  simp only [freshTemp, secure_bind, secure_modify, secure_pure]
  refine secure_onMemory hP (fun e he => ?_) fun cell m hm => ?_
  · rw [Memory.takeTemp_eq] at he
    split at he
    · cases he
      exact ⟨_, _, rfl⟩
    · cases he
  · rw [Memory.takeTemp_eq] at hm
    split at hm
    · cases hm
    · cases hm
      exact hQ

/-- **Only a reserved slot is filled,** and every reserved slot is one of the program. -/
theorem secure_settle {slot : Option Nat} {i : Instruction} {Q : Unit → Generator → Prop}
    (hP : P g) (hQ : ∀ m, Q () { g with memory := m }) : Secure P (settle slot i) g Q := by
  cases slot with
  | none => exact hQ g.memory
  | some slot =>
    simp only [settle, secure_bind, secure_get]
    split
    · rename_i hr
      refine secure_onMemory hP (fun e he => ?_) fun _ m _ => hQ m
      have hlt : slot < g.memory.programNext := by
        rw [Memory.isReserved, beq_iff_eq] at hr
        exact (Array.getElem?_eq_some_iff.1 hr).1
      rw [Memory.fill_eq, if_pos hlt] at he
      cases he
    · exact hQ g.memory

end Memory

end Emission

end OnePass
