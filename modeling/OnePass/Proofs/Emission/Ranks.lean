import OnePass.Proofs.Emission.Ensures
import OnePass.Proofs.Emission.Temporaries
import OnePass.Proofs.Emission.Voids

/-!
# Temporaries on the operand stack

Operands leave the stack in the reverse order of their coming. So the temporaries that they name lie
upon one another just as they do, and one that is given back, which is the latest, is named by none
of those that are left. No action changes that, whatever is on the stack, and none that fails.

* `Ranked`: operands whose temporaries lie upon one another, all below an address.
* `Heaped`: a state with such operands. `Heaped.fresh`: a temporary is pushed.
* `Heaped.perform`: **every action** leaves the operands so.
-/

namespace OnePass.Emission

open Grammar (Action)
open Names Target

section Ranked

variable {first unit next next' : Nat} {o : Operand} {st st' : OperandStack}

/-- **Operands whose temporaries lie upon one another,** below an address. The others are numbers, or
name cells below all temporaries. -/
inductive Ranked (first unit : Nat) : Nat → OperandStack → Prop
  | nil {next : Nat} : Ranked first unit next []
  | low {next : Nat} {o : Operand} {st : OperandStack}
      (ho : o.mode = .immediate ∨ o.value < first) (h : Ranked first unit next st) :
      Ranked first unit next (o :: st)
  | temp {next a : Nat} {o : Operand} {st : OperandStack} (ho : o.value = a) (hfirst : first ≤ a)
      (ha : a + unit ≤ next) (h : Ranked first unit a st) : Ranked first unit next (o :: st)

theorem Ranked.mono (h : Ranked first unit next st) (hle : next ≤ next') :
    Ranked first unit next' st := by
  induction h with
  | nil => exact .nil
  | low ho _ ih => exact .low ho (ih hle)
  | temp ho hfirst ha h _ => exact .temp ho hfirst (Nat.le_trans ha hle) h

theorem Ranked.tail (h : Ranked first unit next (o :: st)) : Ranked first unit next st := by
  cases h with
  | low _ h => exact h
  | temp _ _ ha h => exact h.mono (by omega)

/-- Operands can be left out. -/
theorem Ranked.sublist (h : Ranked first unit next st) (hs : st'.Sublist st) :
    Ranked first unit next st' := by
  induction hs generalizing next with
  | slnil => exact .nil
  | cons o _ ih => exact ih h.tail
  | cons_cons o _ ih =>
    cases h with
    | low ho h => exact .low ho (ih h)
    | temp ho hfirst ha h => exact .temp ho hfirst ha (ih h)

/-- **No temporary from an address on** is named by operands that lie below it. -/
theorem Ranked.lt (h : Ranked first unit next st) (hunit : 0 < unit) (hfirst : first ≤ next) :
    ∀ o ∈ st, o.mode ≠ .immediate → o.value < next := by
  induction h with
  | nil => exact fun _ ho => absurd ho List.not_mem_nil
  | low ho _ ih =>
    refine List.forall_mem_cons.2 ⟨fun hmode => ?_, ih hfirst⟩
    have := ho.resolve_left hmode
    omega
  | temp ho hle ha _ ih =>
    refine List.forall_mem_cons.2 ⟨fun _ => by omega, fun o ho hmode => ?_⟩
    have := ih hle o ho hmode
    omega

end Ranked

/-- **A state whose operands lie below an address,** and in which the temporaries up to another one are
in use. -/
structure Under (c : Config) (limit used : Nat) (g : Generator) : Prop where
  unit : g.memory.unit = c.unit
  tempsFrom : g.memory.tempsFrom = c.tempsFrom
  capacity : g.memory.capacity = c.capacity
  ranked : Ranked c.tempsFrom c.unit limit g.stack
  used : used ≤ g.memory.tempNext

/-- **A state whose operands lie upon one another,** below the temporary that is next. -/
def Heaped (c : Config) (g : Generator) : Prop := ∃ limit, c.tempsFrom ≤ limit ∧ Under c limit limit g

section Steps

variable {c : Config} {limit used used' line : Nat} {g g' : Generator} {o : Operand} {name : String}

namespace Under

/-- Only the operands and the zone of the temporaries matter. -/
theorem congr (h : Under c limit used g) (hs : g'.stack.Sublist g.stack)
    (hunit : g'.memory.unit = g.memory.unit) (hfrom : g'.memory.tempsFrom = g.memory.tempsFrom)
    (hcapacity : g'.memory.capacity = g.memory.capacity)
    (hused : used' ≤ g'.memory.tempNext) : Under c limit used' g' :=
  ⟨hunit.trans h.unit, hfrom.trans h.tempsFrom, hcapacity.trans h.capacity, h.ranked.sublist hs,
    hused⟩

/-- Names, code and errors do not matter. -/
theorem aside (h : Under c limit used g) (hs : g'.stack.Sublist g.stack)
    (hm : g'.memory = g.memory) : Under c limit used g' :=
  h.congr hs (by rw [hm]) (by rw [hm]) (by rw [hm]) (hm ▸ h.used)

theorem low (h : Under c limit used g) (ho : o.mode = .immediate ∨ o.value < c.tempsFrom) :
    Under c limit used (g.push o) :=
  { h with ranked := .low ho h.ranked }

theorem heaped (h : Under c limit used g) (hfirst : c.tempsFrom ≤ limit) (hle : limit ≤ used) :
    Heaped c g := ⟨limit, hfirst, { h with used := Nat.le_trans hle h.used }⟩

/-- **A temporary is pushed** that none of the operands names. -/
theorem fresh {cell : Nat} (h : Under c limit (cell + c.unit) g) (hlimit : limit ≤ cell)
    (hfirst : c.tempsFrom ≤ cell) (ho : o.value = cell) : Heaped c (g.push o) :=
  ⟨cell + c.unit, by omega,
    { h with ranked := .temp ho hfirst (Nat.le_refl _) (h.ranked.mono hlimit) }⟩

end Under

section Stack

theorem sublist_take {st rest : OperandStack} {depth : Nat} (h : st.take? depth = some (o, rest)) :
    rest.Sublist st := by
  obtain ⟨_, _, heq⟩ := Option.map_eq_some_iff.1 h
  cases heq
  exact List.eraseIdx_sublist _ _

theorem sublist_pop (g : Generator) : g.pop.2.stack.Sublist g.stack := by
  unfold Generator.pop
  split
  · rename_i h
    exact sublist_take h
  · exact List.Sublist.refl _

theorem preserves_pop : Preserves (Under c limit used) pop :=
  preserves_modifyGet fun g h => h.aside (sublist_pop g) (Generator.memory_pop g)

theorem preserves_takeValue : Preserves (Under c limit used) (takeValue line) :=
  preserves_modifyGet fun g h => by
    have hs : (g.takeValue line).2.stack = g.pop.2.stack := by
      obtain ⟨_, _, heq⟩ := g.pop.2.useValue_eq line g.pop.1
      exact (congrArg Generator.stack heq :)
    exact h.aside (hs ▸ sublist_pop g) (Generator.memory_takeValue g line)

theorem preserves_takeValues (count : Nat) :
    Preserves (Under c limit used) (takeValues line count) := by
  induction count with
  | zero => exact preserves_pure _
  | succ count ih =>
    exact preserves_bind preserves_takeValue fun _ => preserves_bind ih fun _ => preserves_pure _

theorem preserves_push (ho : o.mode = .immediate) : Preserves (Under c limit used) (push o) :=
  preserves_modify fun _ h => h.low (.inl ho)

/-- What leaves operands and memory alone keeps them. -/
theorem preserves_aside {f : Generator → Generator} (hs : ∀ g, (f g).stack = g.stack)
    (hm : ∀ g, (f g).memory = g.memory) : Preserves (Under c limit used) (modify f) :=
  preserves_modify fun g h => h.aside (hs g ▸ List.Sublist.refl _) (hm g)

theorem preserves_report {fault : SemanticFault} : Preserves (Under c limit used) (report line fault) :=
  preserves_aside (fun _ => rfl) fun _ => rfl

end Stack

section Memory

/-- The operations on code and on variable cells leave the temporaries alone. -/
theorem preserves_onMemory {α : Type} {op : Memory → Except MemoryError (α × Memory)}
    (hop : ∀ m a m', op m = .ok (a, m') → m'.unit = m.unit ∧ m'.tempsFrom = m.tempsFrom ∧
      m'.capacity = m.capacity ∧ m'.tempNext = m.tempNext) :
    Preserves (Under c limit used) (onMemory op) := fun g h =>
  ensures_onMemory h fun a m ha => by
    obtain ⟨hunit, hfrom, hcapacity, hnext⟩ := hop _ _ _ ha
    exact h.congr (List.Sublist.refl _) hunit hfrom hcapacity (hnext ▸ h.used)

theorem preserves_appendSlot {content : Option Instruction} :
    Preserves (Under c limit used) (onMemory (·.appendSlot content)) :=
  preserves_onMemory fun m a m' h => by
    rw [Memory.appendSlot_eq] at h
    split at h
    · cases h
    · cases h
      exact ⟨rfl, rfl, rfl, rfl⟩

theorem preserves_emitAt {i : Instruction} : Preserves (Under c limit used) (emitAt i) :=
  preserves_appendSlot

theorem preserves_emit {i : Instruction} : Preserves (Under c limit used) (emit i) :=
  preserves_bind preserves_emitAt fun _ => preserves_pure ()

theorem preserves_settle {slot : Option Nat} {i : Instruction} :
    Preserves (Under c limit used) (settle slot i) := by
  cases slot with
  | none => exact preserves_pure ()
  | some slot =>
    refine preserves_bind preserves_get fun g => ?_
    split
    · refine preserves_onMemory fun m a m' h => ?_
      rw [Memory.fill_eq] at h
      split at h
      · cases h
        exact ⟨rfl, rfl, rfl, rfl⟩
      · cases h
    · exact preserves_pure ()

theorem preserves_takeNextCell : Preserves (Under c limit used) (onMemory (·.takeNextCell)) :=
  preserves_onMemory fun m a m' h => by
    rw [Memory.takeNextCell_eq] at h
    split at h
    · cases h
    · cases h
      exact ⟨rfl, rfl, rfl, rfl⟩

theorem takeCell_aside {m m' : Memory} {a : Nat} (h : m.takeCell = .ok (a, m')) :
    m'.unit = m.unit ∧ m'.tempsFrom = m.tempsFrom ∧ m'.capacity = m.capacity ∧
      m'.tempNext = m.tempNext := by
  rw [Memory.takeCell_eq] at h
  split at h
  · cases h
    exact ⟨rfl, rfl, rfl, rfl⟩
  · rw [Memory.takeNextCell_eq] at h
    split at h
    · cases h
    · cases h
      exact ⟨rfl, rfl, rfl, rfl⟩

theorem preserves_takeCell : Preserves (Under c limit used) (onMemory (·.takeCell)) :=
  preserves_onMemory fun _ _ _ => takeCell_aside

/-- **A temporary is taken** above all that are in use. -/
theorem Under.freshTemp (h : Under c limit used g) :
    Ensures (Under c limit used) freshTemp g fun cell g' =>
      Under c limit (cell + c.unit) g' ∧ used ≤ cell ∧ cell + c.unit ≤ c.capacity := by
  refine ensures_bind (ensures_onMemory h fun cell m hm => ?_)
  rw [Memory.takeTemp_eq] at hm
  split at hm
  · cases hm
  · rename_i hroom
    cases hm
    have hunit := h.unit
    have hcapacity := h.capacity
    have hnext : g.memory.tempNext + c.unit ≤ g.memory.tempNext + g.memory.unit := by omega
    exact ⟨h.congr (List.Sublist.refl _) rfl rfl rfl hnext, h.used, by omega⟩

/-- A temporary above those that have to stay in use can be given back. -/
theorem preserves_dropTemp {cell : Nat} (hcell : used ≤ cell) :
    Preserves (Under c limit used) (dropTemp cell) :=
  preserves_modify fun g h => by
    unfold Memory.dropTemp
    split
    · exact h.congr (List.Sublist.refl _) rfl rfl rfl hcell
    · exact h

end Memory

section Values

variable {left right : Operand} {op : Opcode}

theorem preserves_requireCell : Preserves (Under c limit used) (requireCell name line) := by
  refine preserves_bind preserves_get fun g => ?_
  split
  · exact preserves_report
  · exact preserves_pure ()

theorem preserves_startList : Preserves (Under c limit used) startList :=
  preserves_bind preserves_get fun _ => preserves_push rfl

theorem preserves_storeItem : Preserves (Under c limit used) (storeItem line) :=
  preserves_bind preserves_takeValue fun _ =>
    preserves_bind preserves_takeNextCell fun _ => preserves_emit

theorem preserves_bindGlobal : Preserves (Under c limit used) (bindGlobal name line) := by
  refine preserves_bind preserves_get fun g => ?_
  split
  · exact preserves_pure ()
  · split
    · exact preserves_report
    · refine preserves_bind (preserves_modifyGet fun g h => ?_) fun row =>
        preserves_aside (fun _ => rfl) fun _ => rfl
      exact h.aside (List.Sublist.refl _) rfl

theorem preserves_store : Preserves (Under c limit used) (store line) :=
  preserves_bind preserves_takeValue fun _ => preserves_bind preserves_pop fun _ =>
    preserves_bind preserves_get fun _ => preserves_emit

theorem preserves_printValue : Preserves (Under c limit used) (printValue line) :=
  preserves_bind preserves_takeValue fun _ => preserves_emit

variable (hfirst : c.tempsFrom ≤ limit)
include hfirst

/-- What is kept leaves operands upon one another. -/
theorem Preserves.heaps {α : Type} {x : Emit α} (hx : Preserves (Under c limit limit) x)
    (h : Under c limit limit g) : Ensures (Heaped c) x g fun _ => Heaped c :=
  (hx g h).mono (fun _ _ h' => ⟨limit, hfirst, h'⟩) fun _ h' => ⟨limit, hfirst, h'⟩

/-- Operands and others are taken first. -/
theorem Preserves.thenHeaps {α β : Type} {x : Emit α} {f : α → Emit β}
    {Q : β → Generator → Prop} (hx : Preserves (Under c limit used) x) (hle : limit ≤ used)
    (h : Under c limit used g)
    (hf : ∀ a g', Under c limit used g' → Ensures (Heaped c) (f a) g' Q) :
    Ensures (Heaped c) (x >>= f) g Q :=
  ensures_bind ((hx g h).mono hf fun _ h' => h'.heaped hfirst hle)

/-- **A temporary is taken,** for what is done next. -/
theorem Under.thenHeaps (hunit : 0 < c.unit) (hsmall : c.capacity ≤ 2 ^ 63)
    (h : Under c limit used g) (hle : limit ≤ used) {f : Nat → Emit Unit}
    (hf : ∀ cell g', used ≤ cell → cell < 2 ^ 63 → Under c limit (cell + c.unit) g' →
      Ensures (Heaped c) (f cell) g' fun _ => Heaped c) :
    Ensures (Heaped c) (Emission.freshTemp >>= f) g fun _ => Heaped c := by
  refine ensures_bind (h.freshTemp.mono ?_ fun _ h' => h'.heaped hfirst hle)
  rintro cell g' ⟨h', hcell, hroom⟩
  exact hf cell g' hcell (by omega) h'

variable (hunit : 0 < c.unit) (hsmall : c.capacity ≤ 2 ^ 63)
include hunit hsmall

/-- **A result is left in a temporary.** -/
theorem heaps_operate (h : Under c limit limit g) :
    Ensures (Heaped c) (operate op left right) g fun _ => Heaped c := by
  refine h.thenHeaps hfirst hunit hsmall (Nat.le_refl _) fun cell g₁ hcell hsmall h₁ => ?_
  refine preserves_emit.thenHeaps hfirst (by omega) h₁ fun _ g₂ h₂ => ?_
  exact h₂.fresh hcell (by omega) (Operand.value_direct hsmall)

theorem heaps_combine (h : Under c limit limit g) :
    Ensures (Heaped c) (combine op line) g fun _ => Heaped c :=
  preserves_takeValue.thenHeaps hfirst (Nat.le_refl _) h fun _ _ h₁ =>
    preserves_takeValue.thenHeaps hfirst (Nat.le_refl _) h₁ fun _ _ h₂ =>
      heaps_operate hfirst hunit hsmall h₂

theorem heaps_relate (h : Under c limit limit g) :
    Ensures (Heaped c) (relate line) g fun _ => Heaped c :=
  preserves_takeValue.thenHeaps hfirst (Nat.le_refl _) h fun _ _ h₁ =>
    preserves_pop.thenHeaps hfirst (Nat.le_refl _) h₁ fun _ _ h₂ =>
      preserves_takeValue.thenHeaps hfirst (Nat.le_refl _) h₂ fun _ _ h₃ =>
        heaps_operate hfirst hunit hsmall h₃

/-- **The two cells of a power that are given back** lie above its result. -/
theorem heaps_raise (h : Under c limit limit g) :
    Ensures (Heaped c) (raise line) g fun _ => Heaped c := by
  refine preserves_takeValue.thenHeaps hfirst (Nat.le_refl _) h fun exponent g₁ h₁ => ?_
  refine preserves_takeValue.thenHeaps hfirst (Nat.le_refl _) h₁ fun base g₂ h₂ => ?_
  refine h₂.thenHeaps hfirst hunit hsmall (Nat.le_refl _) fun result g₃ hresult hword h₃ => ?_
  refine h₃.thenHeaps hfirst hunit hsmall (by omega) fun counter g₄ hcounter _ h₄ => ?_
  refine h₄.thenHeaps hfirst hunit hsmall (by omega) fun running g₅ hrunning _ h₅ => ?_
  -- from here on only the result has to stay in use
  have h₅ : Under c limit (result + c.unit) g₅ :=
    { h₅ with used := Nat.le_trans (by omega) h₅.used }
  have hle : limit ≤ result + c.unit := by omega
  refine preserves_emit.thenHeaps hfirst hle h₅ fun _ _ h₆ => ?_
  refine preserves_emit.thenHeaps hfirst hle h₆ fun _ _ h₇ => ?_
  refine preserves_emitAt.thenHeaps hfirst hle h₇ fun check _ h₈ => ?_
  refine preserves_emit.thenHeaps hfirst hle h₈ fun _ _ h₉ => ?_
  refine preserves_emit.thenHeaps hfirst hle h₉ fun _ _ h₁₀ => ?_
  refine preserves_emit.thenHeaps hfirst hle h₁₀ fun _ _ h₁₁ => ?_
  refine preserves_emit.thenHeaps hfirst hle h₁₁ fun _ _ h₁₂ => ?_
  refine (preserves_dropTemp (by omega)).thenHeaps hfirst hle h₁₂ fun _ _ h₁₃ => ?_
  refine (preserves_dropTemp hcounter).thenHeaps hfirst hle h₁₃ fun _ _ h₁₄ => ?_
  exact h₁₄.fresh hresult (by omega) (Operand.value_direct hword)

/-- **An element** is read or written through the later of two temporaries. -/
theorem heaps_element {asValue : Bool} (h : Under c limit limit g) :
    Ensures (Heaped c) (element line asValue) g fun _ => Heaped c := by
  refine preserves_takeValue.thenHeaps hfirst (Nat.le_refl _) h fun index _ h₁ => ?_
  refine preserves_takeValue.thenHeaps hfirst (Nat.le_refl _) h₁ fun base _ h₂ => ?_
  refine preserves_get.thenHeaps hfirst (Nat.le_refl _) h₂ fun _ _ h₃ => ?_
  refine h₃.thenHeaps hfirst hunit hsmall (Nat.le_refl _) fun offset _ hoffset _ h₄ => ?_
  refine preserves_emit.thenHeaps hfirst (by omega) h₄ fun _ _ h₅ => ?_
  refine h₅.thenHeaps hfirst hunit hsmall (by omega) fun address _ haddress hword h₆ => ?_
  refine preserves_emit.thenHeaps hfirst (by omega) h₆ fun _ _ h₇ => ?_
  refine h₇.fresh (by omega) (by omega) ?_
  cases asValue
  · exact Operand.value_direct hword
  · exact Operand.value_indirect hword

end Values

section Control

theorem preserves_mapDefinition {f : Definition → Definition} :
    Preserves (Under c limit used) (modify (·.mapDefinition f)) :=
  preserves_aside (fun _ => rfl) fun _ => rfl

theorem preserves_setMeaning {row : Nat} {m : Meaning} :
    Preserves (Under c limit used) (modify (·.setMeaning row m)) :=
  preserves_aside (fun _ => rfl) fun _ => rfl

theorem preserves_holdSlot : Preserves (Under c limit used) holdSlot :=
  preserves_bind preserves_appendSlot fun _ =>
    preserves_bind (preserves_push rfl) fun _ => preserves_mapDefinition

theorem preserves_heldSlot : Preserves (Under c limit used) heldSlot :=
  preserves_bind preserves_mapDefinition fun _ =>
    preserves_bind preserves_pop fun _ => preserves_pure _

theorem preserves_settleCondition {distance : Nat} :
    Preserves (Under c limit used) (settleCondition distance) :=
  preserves_bind preserves_heldSlot fun _ => preserves_bind preserves_pop fun _ =>
    preserves_bind preserves_get fun _ => preserves_settle

theorem preserves_startElse : Preserves (Under c limit used) startElse :=
  preserves_bind preserves_settleCondition fun _ => preserves_holdSlot

theorem preserves_endElse : Preserves (Under c limit used) endElse :=
  preserves_bind preserves_heldSlot fun _ => preserves_bind preserves_get fun _ => preserves_settle

theorem preserves_loopRecord : Preserves (Under c limit used) loopRecord := by
  refine preserves_bind preserves_get fun g => ?_
  dsimp only
  split
  · exact preserves_defect
  · split
    · exact preserves_pure _
    · exact preserves_bind preserves_setMeaning fun _ => preserves_pure _
    · exact preserves_defect

theorem preserves_startLoop : Preserves (Under c limit used) startLoop :=
  preserves_bind preserves_get fun _ => preserves_bind preserves_loopRecord fun _ =>
    preserves_bind preserves_setMeaning fun _ => preserves_aside (fun _ => rfl) fun _ => rfl

theorem preserves_settleLoop {slot : Option Nat} {condition : Operand} {closed : ClosedLoop} :
    Preserves (Under c limit used) (settleLoop slot condition closed) :=
  preserves_bind preserves_emit fun _ => preserves_bind preserves_get fun _ =>
    preserves_bind preserves_settle fun _ =>
      preserves_bind (preserves_forM (fun _ => preserves_settle) _) fun _ =>
        preserves_forM (fun _ => preserves_settle) _

theorem preserves_endLoop : Preserves (Under c limit used) endLoop := by
  refine preserves_bind preserves_heldSlot fun slot => preserves_bind preserves_pop fun condition =>
    preserves_bind preserves_loopRecord fun ⟨row, record⟩ => ?_
  have hleave : Preserves (Under c limit used) (modify (·.leaveScope)) :=
    preserves_aside (fun _ => rfl) fun _ => rfl
  dsimp only
  split
  · exact preserves_bind preserves_setMeaning fun _ =>
      preserves_bind preserves_settleLoop fun _ => hleave
  · exact hleave

theorem preserves_leaveLoop {outside : SemanticFault} {add : LoopRecord → Nat → LoopRecord} :
    Preserves (Under c limit used) (leaveLoop line outside add) := by
  refine preserves_bind preserves_get fun g => ?_
  split
  · exact preserves_bind preserves_appendSlot fun _ => preserves_bind preserves_loopRecord fun _ =>
      preserves_setMeaning
  · exact preserves_report

end Control

section Functions

theorem preserves_bindFresh : Preserves (Under c limit used) (bindFresh name) := by
  refine preserves_bind (preserves_modifyGet fun g h => ?_) fun row =>
    preserves_bind preserves_takeCell fun _ =>
      preserves_bind preserves_setMeaning fun _ => preserves_pure _
  exact h.aside (List.Sublist.refl _) rfl

theorem preserves_startFunction : Preserves (Under c limit used) (startFunction name) := by
  refine preserves_bind preserves_appendSlot fun _ => preserves_bind preserves_takeCell fun _ =>
    preserves_bind preserves_takeCell fun _ =>
      preserves_bind (preserves_modifyGet fun g h => ?_) fun row =>
        preserves_bind preserves_get fun _ =>
          preserves_bind (preserves_aside (fun _ => rfl) fun _ => rfl) fun _ =>
            preserves_aside (fun _ => rfl) fun _ => rfl
  exact h.aside (List.Sublist.refl _) rfl

theorem preserves_addParameter : Preserves (Under c limit used) (addParameter name) :=
  preserves_bind preserves_bindFresh fun _ => preserves_mapDefinition

theorem preserves_giveMeaning {row : Nat} {change : Meaning → Except MeaningError Meaning} :
    Preserves (Under c limit used) (giveMeaning row change) := by
  refine preserves_bind preserves_get fun g => ?_
  split
  · exact preserves_pure ()
  · split
    · exact preserves_setMeaning
    · exact preserves_defect

theorem preserves_publish : Preserves (Under c limit used) publish := by
  refine preserves_bind preserves_get fun g => ?_
  split
  · exact preserves_pure ()
  · split
    · exact preserves_pure ()
    · exact preserves_bind preserves_mapDefinition fun _ => preserves_giveMeaning

theorem preserves_returningFrom : Preserves (Under c limit used) returningFrom := by
  refine preserves_bind preserves_get fun g => ?_
  split
  · exact preserves_pure _
  · split
    · exact preserves_bind preserves_mapDefinition fun _ => preserves_pure _
    · exact preserves_pure _

theorem preserves_functionOn {row : Nat} : Preserves (Under c limit used) (functionOn row) := by
  refine preserves_bind preserves_get fun g => ?_
  dsimp only
  split
  · exact preserves_pure _
  · exact preserves_defect

theorem preserves_emitReturn {info : FunctionInfo} :
    Preserves (Under c limit used) (emitReturn info o) :=
  preserves_bind preserves_emit fun _ => preserves_emit

theorem preserves_returnWith : Preserves (Under c limit used) (returnWith line) := by
  refine preserves_bind preserves_takeValue fun _ => preserves_bind preserves_returningFrom fun row => ?_
  split
  · exact preserves_pure ()
  · exact preserves_bind preserves_functionOn fun _ => preserves_bind preserves_emitReturn fun _ =>
      preserves_setMeaning

theorem preserves_returnNothing : Preserves (Under c limit used) returnNothing := by
  refine preserves_bind preserves_returningFrom fun row => ?_
  split
  · exact preserves_pure ()
  · exact preserves_bind preserves_functionOn fun _ => preserves_emit

theorem preserves_endFunction : Preserves (Under c limit used) endFunction := by
  refine preserves_bind preserves_publish fun _ => preserves_bind preserves_get fun g => ?_
  split
  · exact preserves_pure ()
  · rename_i d rest _
    have hlast : Preserves (Under c limit used) (get >>= fun g' : Generator =>
        settle (some d.aroundSlot) (.jump g'.programNext) >>= fun _ =>
          modify (·.leaveScope) >>= fun _ => modify ({ · with lastDefined := some d.row })) :=
      preserves_bind preserves_get fun _ => preserves_bind preserves_settle fun _ =>
        preserves_bind (preserves_aside (fun _ => rfl) fun _ => rfl) fun _ =>
          preserves_aside (fun _ => rfl) fun _ => rfl
    refine preserves_bind (preserves_aside (fun _ => rfl) fun _ => rfl) fun _ => ?_
    dsimp only
    split
    · exact preserves_bind preserves_functionOn fun _ =>
        preserves_bind preserves_emitReturn fun _ => hlast
    · exact hlast

/-- Variable cells are given back, and no temporaries. -/
theorem preserves_retireFunction {row : Nat} :
    Preserves (Under c limit used) (modify (·.retireFunction row)) :=
  preserves_modify fun g h => by
    have heq := Memory.freeCells_eq (((g.symbols.function? row).map FunctionInfo.cells).getD []) g.memory
    refine h.congr (List.Sublist.refl _) ?_ ?_ ?_ (Nat.le_trans h.used (Nat.le_of_eq ?_))
    · exact (congrArg Memory.unit heq :)
    · exact (congrArg Memory.tempsFrom heq :)
    · exact (congrArg Memory.capacity heq :)
    · exact (congrArg Memory.tempNext heq).symm

theorem preserves_retireRivals : Preserves (Under c limit used) (retireRivals line) := by
  refine preserves_bind preserves_get fun g => ?_
  split
  · exact preserves_pure ()
  · exact preserves_bind (preserves_aside (fun _ => rfl) fun _ => rfl) fun _ =>
      preserves_forM (fun other => preserves_bind preserves_report fun _ =>
        preserves_retireFunction) _

end Functions

section Calls

variable {row : Nat} {info : FunctionInfo} {arguments : List Operand}

theorem preserves_startCall : Preserves (Under c limit used) (startCall name) :=
  preserves_bind (preserves_push rfl) fun _ => preserves_aside (fun _ => rfl) fun _ => rfl

theorem preserves_countArgument : Preserves (Under c limit used) countArgument := by
  refine preserves_bind (preserves_modifyGet fun g h => ?_) fun _ => preserves_push rfl
  split
  · rename_i hst
    exact h.aside (sublist_take hst) rfl
  · exact h

theorem preserves_jumpInto : Preserves (Under c limit used) (jumpInto info) :=
  preserves_bind preserves_get fun _ => preserves_bind preserves_emit fun _ => preserves_emit

variable (hfirst : c.tempsFrom ≤ limit) (hunit : 0 < c.unit) (hsmall : c.capacity ≤ 2 ^ 63)
include hfirst

omit hfirst in
/-- **The result of a call that is dropped** lies above all that are left. -/
theorem Under.dropped {st : OperandStack} {cell : Nat} (h : Under c limit limit g)
    (hst : g.stack = o :: st) (hzone : g.memory.inTempZone o.value)
    (hcell : Generator.directCell? o = some cell) :
    Heaped c (({ g with stack := st }.clearVoid cell).dropTemp cell) := by
  have hranked := h.ranked
  rw [hst] at hranked
  unfold Memory.inTempZone at hzone
  rw [h.tempsFrom, Bool.and_eq_true, decide_eq_true_eq] at hzone
  cases hranked with
  | low ho _ =>
    rcases ho with hmode | hlow
    · rw [Generator.directCell?, hmode] at hcell
      cases hcell
    · omega
  | temp ho hfirst ha hranked =>
    rw [value_of_directCell? hcell, Int.natCast_inj] at ho
    subst ho
    have hused := h.used
    have hleft : Under c cell cell ({ g with stack := st }.clearVoid cell) :=
      ⟨h.unit, h.tempsFrom, h.capacity, hranked, by dsimp only [Generator.clearVoid]; omega⟩
    exact Under.heaped (preserves_dropTemp (Nat.le_refl _) _ hleft) hfirst (Nat.le_refl _)

theorem heaps_dropResult (h : Under c limit limit g) :
    Ensures (Heaped c) dropResult g fun _ => Heaped c := by
  have hrest : Under c limit limit g.pop.2 := preserves_pop g h
  refine ensures_bind (x := pop) (ensures_bind (x := get) ?_)
  change Ensures _ (if g.pop.2.memory.inTempZone g.pop.1.value then _ else _) g.pop.2 _
  split
  · rename_i hzone
    split
    · rename_i cell hcell
      change Generator.directCell? g.pop.1 = some cell at hcell
      cases hst : g.stack with
      | nil =>
        have hpop : g.pop.1 = .immediate 0 := by
          simp [Generator.pop, OperandStack.pop?, OperandStack.take?, OperandStack.at?, hst]
        rw [hpop] at hcell
        cases hcell
      | cons o st =>
        rw [Generator.pop_eq hst] at hzone hcell ⊢
        exact h.dropped hst hzone hcell
    · exact hrest.heaped hfirst (Nat.le_refl _)
  · exact hrest.heaped hfirst (Nat.le_refl _)

include hunit hsmall

theorem heaps_callFunction (h : Under c limit limit g) :
    Ensures (Heaped c) (callFunction row info arguments) g fun _ => Heaped c := by
  refine (preserves_forM (fun _ => preserves_emit) _).thenHeaps hfirst (Nat.le_refl _) h
    fun _ _ h₁ => ?_
  refine preserves_jumpInto.thenHeaps hfirst (Nat.le_refl _) h₁ fun _ _ h₂ => ?_
  refine h₂.thenHeaps hfirst hunit hsmall (Nat.le_refl _) fun result _ hresult hword h₃ => ?_
  refine preserves_emit.thenHeaps hfirst (by omega) h₃ fun _ _ h₄ => ?_
  refine preserves_get.thenHeaps hfirst (by omega) h₄ fun _ _ h₅ => ?_
  have hpush : ∀ g', Under c limit (result + c.unit) g' →
      Ensures (Heaped c) (push (.direct result)) g' fun _ => Heaped c := fun g' h' =>
    h'.fresh hresult (by omega) (Operand.value_direct hword)
  dsimp only
  split
  · exact (preserves_aside (f := (·.markVoid result)) (fun _ => rfl) fun _ => rfl).thenHeaps hfirst
      (by omega) h₅ fun _ _ h₆ => hpush _ h₆
  · exact hpush _ h₅

theorem heaps_resolveCall (h : Under c limit limit g) :
    Ensures (Heaped c) (resolveCall line) g fun _ => Heaped c := by
  refine preserves_pop.thenHeaps hfirst (Nat.le_refl _) h fun counter _ h₁ => ?_
  refine preserves_get.thenHeaps hfirst (Nat.le_refl _) h₁ fun g₁ _ h₂ => ?_
  refine (preserves_takeValues _).thenHeaps hfirst (Nat.le_refl _) h₂ fun arguments _ h₃ => ?_
  refine preserves_get.thenHeaps hfirst (Nat.le_refl _) h₃ fun g₂ _ h₄ => ?_
  have hpending : Preserves (Under c limit limit)
      (modify fun g => { g with pendingCalls := g.pendingCalls.tail }) :=
    preserves_aside (fun _ => rfl) fun _ => rfl
  refine hpending.thenHeaps hfirst (Nat.le_refl _) h₄ fun _ _ h₅ => ?_
  refine preserves_get.thenHeaps hfirst (Nat.le_refl _) h₅ fun g₃ _ h₆ => ?_
  dsimp only
  split
  · exact heaps_callFunction hfirst hunit hsmall h₆
  · exact (preserves_bind preserves_report fun _ => preserves_push rfl).heaps hfirst h₆

end Calls

section Names

variable {found : Option Nat}
  (hnew : ∀ cell m, g.memory.takeCell = .ok (cell, m) → cell < c.tempsFrom)
include hnew

/-- A name gets a cell below the temporaries. -/
theorem Under.bindFresh (h : Under c limit used g) :
    Ensures (Under c limit used) (bindFresh name) g fun cell g' =>
      Under c limit used g' ∧ cell < c.tempsFrom := by
  have hrow : Under c limit used (g.rowFor name Meaning.isVariable).2 :=
    h.aside (List.Sublist.refl _) rfl
  refine ensures_bind (x := modifyGet _) (ensures_bind (ensures_onMemory hrow fun cell m hm => ?_))
  obtain ⟨hunit, hfrom, hcapacity, hnext⟩ := takeCell_aside hm
  have hm' : Under c limit used { (g.rowFor name Meaning.isVariable).2 with memory := m } :=
    hrow.congr (List.Sublist.refl _) hunit hfrom hcapacity (hnext ▸ hrow.used)
  refine ensures_bind ((preserves_setMeaning _ hm').mono (fun _ g' h' => ?_) fun _ h' => h')
  exact ⟨h', hnew cell m hm⟩

/-- **The cell of a name is pushed.** It lies below all temporaries. -/
theorem Under.named (hfirst : c.tempsFrom ≤ limit) (hfrom : c.tempsFrom ≤ 2 ^ 63)
    (hfound : ∀ cell, found = some cell → cell < c.tempsFrom) (h : Under c limit limit g) :
    Ensures (Heaped c) (do
      let cell ← match found with
        | some cell => pure cell
        | none => Emission.bindFresh name
      push (.direct cell)) g fun _ => Heaped c := by
  have hpush : ∀ cell g', Under c limit limit g' → cell < c.tempsFrom →
      Ensures (Heaped c) (push (.direct cell)) g' fun _ => Heaped c := fun cell g' h' hcell => by
    have hlow : (Operand.direct cell).value < c.tempsFrom := by
      rw [Operand.value_direct (by omega)]
      omega
    exact (h'.low (.inr hlow)).heaped hfirst (Nat.le_refl _)
  cases found with
  | some cell => exact ensures_bind (x := pure cell) (hpush cell g h (hfound cell rfl))
  | none =>
    exact ensures_bind ((h.bindFresh hnew).mono (fun cell g' h' => hpush cell g' h'.1 h'.2)
      fun _ h' => h'.heaped hfirst (Nat.le_refl _))

end Names

variable (hunit : 0 < c.unit) (hsmall : c.capacity ≤ 2 ^ 63)
include hunit hsmall

/-- **Every action leaves operands upon one another,** and so does its failure, if variables lie below
the temporaries. -/
theorem Heaped.perform {a : Action} (hfrom : c.tempsFrom ≤ 2 ^ 63)
    (hfound : ∀ x cell, g.readCell? x = some cell ∨ g.ownCell? x = some cell → cell < c.tempsFrom)
    (hnew : ∀ cell m, g.memory.takeCell = .ok (cell, m) → cell < c.tempsFrom) (lexeme : String)
    (h : Heaped c g) : Ensures (Heaped c) (perform a lexeme line) g fun _ => Heaped c := by
  obtain ⟨limit, hfirst, h⟩ := h
  cases a with
  | pushId =>
    exact ensures_bind (x := get) (h.named hnew hfirst hfrom fun cell hc => hfound _ cell (.inl hc))
  | pushTarget =>
    exact ensures_bind (x := get) (h.named hnew hfirst hfrom fun cell hc => hfound _ cell (.inr hc))
  | pushNumber => exact (preserves_push rfl).heaps hfirst h
  | checkDefined => exact preserves_requireCell.heaps hfirst h
  | elementAddress => exact heaps_element hfirst hunit hsmall h
  | elementValue => exact heaps_element hfirst hunit hsmall h
  | listBegin => exact preserves_startList.heaps hfirst h
  | listItem => exact preserves_storeItem.heaps hfirst h
  | add => exact heaps_combine hfirst hunit hsmall h
  | sub => exact heaps_combine hfirst hunit hsmall h
  | mult => exact heaps_combine hfirst hunit hsmall h
  | power => exact heaps_raise hfirst hunit hsmall h
  | markEq => exact (preserves_push rfl).heaps hfirst h
  | markLt => exact (preserves_push rfl).heaps hfirst h
  | compare => exact heaps_relate hfirst hunit hsmall h
  | assign => exact preserves_store.heaps hfirst h
  | print => exact preserves_printValue.heaps hfirst h
  | global => exact preserves_bindGlobal.heaps hfirst h
  | breakLoop => exact preserves_leaveLoop.heaps hfirst h
  | continueLoop => exact preserves_leaveLoop.heaps hfirst h
  | save => exact preserves_holdSlot.heaps hfirst h
  | falseJump => exact preserves_settleCondition.heaps hfirst h
  | falseJumpSave => exact preserves_startElse.heaps hfirst h
  | jump => exact preserves_endElse.heaps hfirst h
  | loopBegin => exact preserves_startLoop.heaps hfirst h
  | loopEnd => exact preserves_endLoop.heaps hfirst h
  | beginCall => exact preserves_startCall.heaps hfirst h
  | takeArgument => exact preserves_countArgument.heaps hfirst h
  | dispatch => exact heaps_resolveCall hfirst hunit hsmall h
  | discardResult => exact heaps_dropResult hfirst h
  | enterFunction => exact preserves_startFunction.heaps hfirst h
  | param => exact preserves_addParameter.heaps hfirst h
  | paramsDone => exact preserves_publish.heaps hfirst h
  | returnValue => exact preserves_returnWith.heaps hfirst h
  | returnVoid => exact preserves_returnNothing.heaps hfirst h
  | exitFunction => exact preserves_endFunction.heaps hfirst h
  | checkOverload => exact preserves_retireRivals.heaps hfirst h

end Steps

end OnePass.Emission
