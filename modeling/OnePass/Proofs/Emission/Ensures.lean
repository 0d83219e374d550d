import OnePass.Proofs.Emission.Ends

/-!
# What steps of generation leave behind

A step that fails leaves a state, too, and the next step starts from there. So a property that
is to outlast any sequence of steps has to be kept wherever a step stops.

* `Ensures`: what holds where a step ends, and where it fails.
* `Preserves`: a step that keeps a property, wherever it stops. `preserves_bind` and the others.
* `Atomic`: a step that changes nothing if it fails. `Ends.ensures`: what it ends in says it all.
-/

namespace OnePass.Emission

open Target

variable {α β : Type} {I : Generator → Prop} {g : Generator} {Q P : α → Generator → Prop}

/-- **A step whose results have a property.** If it fails it leaves a state with another one. -/
def Ensures (I : Generator → Prop) (x : Emit α) (g : Generator) (Q : α → Generator → Prop) : Prop :=
  match x g with
  | .ok a g' => Q a g'
  | .error _ g' => I g'

/-- **A step that keeps a property,** even if it fails. -/
def Preserves (I : Generator → Prop) (x : Emit α) : Prop := ∀ g, I g → Ensures I x g fun _ => I

theorem Ensures.ends {x : Emit α} (h : Ensures I x g Q) : Ends x g Q := by
  intro a g' hx
  rwa [Ensures, hx] at h

theorem Ensures.mono {J : Generator → Prop} {x : Emit α} (h : Ensures I x g P)
    (hPQ : ∀ a g', P a g' → Q a g') (hIJ : ∀ g', I g' → J g') : Ensures J x g Q := by
  unfold Ensures at h ⊢
  split at h
  · exact hPQ _ _ h
  · exact hIJ _ h

theorem ensures_bind {x : Emit α} {f : α → Emit β} {R : β → Generator → Prop}
    (h : Ensures I x g fun a g' => Ensures I (f a) g' R) : Ensures I (x >>= f) g R := by
  unfold Ensures at h ⊢
  change match EStateM.bind x f g with | .ok a g' => R a g' | .error _ g' => I g'
  unfold EStateM.bind
  split at h
  · rename_i hx
    rw [hx]
    exact h
  · rename_i hx
    rw [hx]
    exact h

theorem ensures_onMemory {op : Memory → Except MemoryError (α × Memory)} (hg : I g)
    (h : ∀ a m, op g.memory = .ok (a, m) → Q a { g with memory := m }) :
    Ensures I (onMemory op) g Q := by
  unfold Ensures onMemory
  cases hop : op g.memory with
  | error e => exact hg
  | ok r => exact h r.1 r.2 hop

theorem ensures_pure {a : α} (h : Q a g) : Ensures I (pure a) g Q := h

theorem ensures_get {Q : Generator → Generator → Prop} (h : Q g g) : Ensures I get g Q := h

theorem ensures_modify {f : Generator → Generator} {Q : Unit → Generator → Prop}
    (h : Q () (f g)) : Ensures I (modify f) g Q := h

theorem ensures_modifyGet {f : Generator → α × Generator} (h : Q (f g).1 (f g).2) :
    Ensures I (modifyGet f) g Q := h

theorem ensures_defect {e : Defect} (hg : I g) : Ensures I (defect e : Emit α) g Q := hg

theorem preserves_pure (a : α) : Preserves I (pure a) := fun _ h => h

theorem preserves_bind {x : Emit α} {f : α → Emit β} (hx : Preserves I x)
    (hf : ∀ a, Preserves I (f a)) : Preserves I (x >>= f) := fun g h =>
  ensures_bind ((hx g h).mono (fun a g' hg' => hf a g' hg') fun _ hg' => hg')

theorem preserves_get : Preserves I get := fun _ h => h

theorem preserves_modify {f : Generator → Generator} (hf : ∀ g, I g → I (f g)) :
    Preserves I (modify f) := fun g h => hf g h

theorem preserves_modifyGet {f : Generator → α × Generator} (hf : ∀ g, I g → I (f g).2) :
    Preserves I (modifyGet f) := fun g h => hf g h

theorem preserves_defect {e : Defect} : Preserves I (defect e : Emit α) := fun _ h => h

theorem preserves_forM_mem {γ : Type} {f : γ → Emit Unit} {items : List γ}
    (hf : ∀ x ∈ items, Preserves I (f x)) : Preserves I (items.forM f) := by
  induction items with
  | nil => exact preserves_pure ()
  | cons x items ih =>
    rw [List.forall_mem_cons] at hf
    exact preserves_bind hf.1 fun _ => ih hf.2

theorem preserves_forM {γ : Type} {f : γ → Emit Unit} (hf : ∀ x, Preserves I (f x))
    (items : List γ) : Preserves I (items.forM f) := preserves_forM_mem fun x _ => hf x

/-- **A step that changes nothing if it fails.** -/
def Atomic (x : Emit α) : Prop := ∀ g e g', x g = .error e g' → g' = g

theorem Ends.ensures {x : Emit α} (h : Ends x g Q) (hx : Atomic x) (hg : I g) :
    Ensures I x g Q := by
  unfold Ensures
  split
  · exact h _ _ ‹_›
  · rename_i e g' he
    rw [hx g e g' he]
    exact hg

theorem atomic_onMemory {op : Memory → Except MemoryError (α × Memory)} :
    Atomic (onMemory op) := by
  intro g e g' h
  unfold onMemory at h
  split at h
  · cases h
  · cases h
    rfl

/-- What reads the state and does one thing changes nothing if that fails. -/
theorem atomic_get_bind {f : Generator → Emit α} (hf : ∀ g, Atomic (f g)) : Atomic (get >>= f) :=
  fun g e g' h => hf g g e g' h

theorem atomic_freshTemp : Atomic freshTemp := by
  intro g e g' h
  unfold freshTemp at h
  change EStateM.bind _ _ g = _ at h
  unfold EStateM.bind at h
  split at h
  · cases h
  · rename_i hop
    cases h
    exact atomic_onMemory g _ _ hop

theorem atomic_settle {slot : Option Nat} {i : Instruction} : Atomic (settle slot i) := by
  cases slot with
  | none => exact fun _ _ _ h => by cases h
  | some slot =>
    refine atomic_get_bind fun g => ?_
    split
    · exact atomic_onMemory
    · exact fun _ _ _ h => by cases h

theorem atomic_functionOn {row : Nat} : Atomic (functionOn row) := by
  refine atomic_get_bind fun g => ?_
  dsimp only
  split <;> exact fun _ _ _ h => by cases h <;> rfl

end OnePass.Emission
