import OnePass.Proofs.Emission.Ranks
import OnePass.Proofs.Target.Guarded
import OnePass.Proofs.Target.Operations

/-!
# Memory images that spare return cells

The return cell of a function is idle while its parameters are being read, as no call can find it
yet. When it can be called, calls write that cell, and nothing else does. So the fence around return
cells is moved when a definition begins, and when its parameters have been read.

* `Fence`: what code is kept from. `Fence.Holds`: a memory image that is kept from it.
* `Fence.Moves`: a fence that takes nothing away.
* `Holds.append`, `Holds.fill`, `Holds.call`, `Holds.takeCell`, `Holds.withTemp`: what is done to a
  memory image.
* `Holds.opening`, `Holds.publishing`: **the fence is moved.**
-/

namespace OnePass.Emission

open Names Target

/-- **What code is kept from:** the return cells of the functions that can be called, which only calls
write, and those of functions whose parameters are being read, which nothing writes. -/
structure Fence where
  functions : FunctionInfo → Prop
  opened : Nat → Prop

namespace Fence

variable (F : Fence) (c : Config) (m : Memory)

/-- A cell that no code writes: one of a function whose parameters are being read, or one that has
not been handed out. -/
def Idle (a : Nat) : Prop := F.opened a ∨ (m.dataNext ≤ a ∧ a < c.tempsFrom)

/-- A cell that code may write. -/
abbrev Leaves (a : Nat) : Prop := Writable F.functions (F.Idle c m) a

/-- An operand that code may write. -/
def Allows (o : Operand) : Prop := o.mode = .direct → ∀ a : Nat, o.value = a → F.Leaves c m a

/-- A slot of the program that jumps may lead to. -/
def Reaches (t : Nat) : Prop := t ≤ m.program.size ∧ Lands F.functions m.program t

/-- **What a row may mean:** a variable whose cell may be written, a function that can be called, or
loops that begin where jumps may lead. -/
def Suits : Meaning → Prop
  | .variable cell => ∀ a ∈ cell, F.Leaves c m a
  | .function f => F.functions f.bare ∧ ∀ a ∈ f.result :: f.params, F.Leaves c m a
  | .loops record => ∀ t ∈ record.starts, F.Reaches m t

/-- **A memory image whose code is kept from return cells,** also with so many slots to come. Each
function has its own. -/
structure Holds (slack : Nat) : Prop where
  regular : m.Regular c
  spare : m.spareCells = []
  code : Guarded F.functions (F.Idle c m) slack m.program
  below : ∀ a, F.opened a ∨ (∃ f, F.functions f ∧ f.returnCell = a) → a < m.dataNext
  apart : ∀ f, F.functions f → ¬F.opened f.returnCell
  unique : ∀ f f', F.functions f → F.functions f' → f.returnCell = f'.returnCell → f = f'
  starts : ∀ f, F.functions f → F.Reaches m f.start

/-- **A fence that is moved:** what could be called still can, what code may write it still may, and
jumps may lead where they did. -/
structure Moves (F' : Fence) (m' : Memory) : Prop where
  functions : ∀ f, F.functions f → F'.functions f
  leaves : ∀ a, F.Leaves c m a → F'.Leaves c m' a
  reaches : ∀ t, F.Reaches m t → F'.Reaches m' t

variable {F c m} {F' F'' : Fence} {m' m'' : Memory} {E : Setting} {a slack : Nat} {o : Operand}
  {i : Instruction} {content : Option Instruction}

namespace Moves

theorem trans (h : F.Moves c m F' m') (h' : F'.Moves c m' F'' m'') : F.Moves c m F'' m'' where
  functions f hf := h'.functions f (h.functions f hf)
  leaves a ha := h'.leaves a (h.leaves a ha)
  reaches t ht := h'.reaches t (h.reaches t ht)

/-- The fence stays where no cell is taken back. -/
theorem of_le (hle : m.dataNext ≤ m'.dataNext) (hr : ∀ t, F.Reaches m t → F.Reaches m' t) :
    F.Moves c m F m' where
  functions _ hf := hf
  leaves _ ha := ha.mono fun _ => Or.imp_right (And.imp_left (Nat.le_trans hle))
  reaches := hr

theorem allows (h : F.Moves c m F' m') (ho : F.Allows c m o) : F'.Allows c m' o :=
  fun hmode a ha => h.leaves a (ho hmode a ha)

theorem suits (h : F.Moves c m F' m') {meaning : Meaning} (hm : F.Suits c m meaning) :
    F'.Suits c m' meaning := by
  rcases meaning with cell | f | record
  · exact fun a ha => h.leaves a (hm a ha)
  · exact ⟨h.functions _ hm.1, fun a ha => h.leaves a (hm.2 a ha)⟩
  · exact fun t ht => h.reaches t (hm t ht)

end Moves

theorem allows_immediate (v : Int) : F.Allows c m (.immediate v) := fun hmode => by cases hmode

theorem allows_indirect (a : Nat) : F.Allows c m (.indirect a) := fun hmode => by cases hmode

theorem allows_direct (ha : F.Leaves c m a) : F.Allows c m (.direct a) := by
  intro _ b hb
  rw [Operand.value_direct ha.small] at hb
  obtain rfl := Int.natCast_inj.1 hb
  exact ha

/-- What writes such operands may be appended. -/
theorem admits_assign (v : Operand) (ho : F.Allows c m o) {p : Program} :
    Admits F.functions (F.Idle c m) p slack (.assign v o) where
  shaped := .plain (Instruction.plain_assign _ _)
  writes a hw := ho (Instruction.writesTo_assign.1 hw).1 a (Instruction.writesTo_assign.1 hw).2
  leads t ht := by
    rw [(Instruction.plain_assign v o).jumpTarget?] at ht
    cases ht

theorem admits_binary {op : Opcode}
    (hop : op = .add ∨ op = .sub ∨ op = .mult ∨ op = .eq ∨ op = .lt) (u v : Operand)
    (ho : F.Allows c m o) {p : Program} :
    Admits F.functions (F.Idle c m) p slack (.binary op u v o) where
  shaped := .plain (Instruction.plain_binary hop _ _ _)
  writes a hw := ho ((Instruction.writesTo_binary hop).1 hw).1 a
    ((Instruction.writesTo_binary hop).1 hw).2
  leads t ht := by
    rw [(Instruction.plain_binary hop u v o).jumpTarget?] at ht
    cases ht

theorem admits_print (v : Operand) {p : Program} :
    Admits F.functions (F.Idle c m) p slack (.print v) where
  shaped := .plain (Instruction.plain_print _)
  writes a hw := absurd hw (Instruction.not_writesTo rfl)
  leads t ht := by
    rw [(Instruction.plain_print v).jumpTarget?] at ht
    cases ht

theorem admits_jumpThrough (a : Nat) {p : Program} :
    Admits F.functions (F.Idle c m) p slack (.jumpThrough a) where
  shaped := .jumpThrough _
  writes a hw := absurd hw (Instruction.not_writesTo rfl)
  leads t ht := by
    rw [Instruction.jumpTarget?_jumpThrough] at ht
    cases ht

/-- A slot that an address names is the address itself, but for addresses that are no words. -/
theorem eq_of_index?_direct {s t : Nat} (hs : s < 2 ^ 64)
    (h : (Operand.direct s).index? = some t) : t = s := by
  unfold Operand.index? Operand.direct at h
  dsimp only at h
  generalize hv : Operand.word s = v at h
  obtain ⟨hle, heq⟩ := Option.ite_none_right_eq_some.1 h
  rw [Operand.word, Operand.wordCount, Int.bmod_def] at hv
  have ht := Option.some.inj heq
  split at hv <;> omega

theorem admits_jump {s : Nat} {p : Program} (hs : s < 2 ^ 64) (hle : s ≤ p.size + slack)
    (hl : Lands F.functions p s) : Admits F.functions (F.Idle c m) p slack (.jump s) where
  shaped := .jump _
  writes a hw := absurd hw (Instruction.not_writesTo rfl)
  leads t ht := by
    rw [Instruction.jumpTarget?_jump_eq] at ht
    obtain rfl := eq_of_index?_direct hs ht
    exact ⟨hle, hl⟩

theorem admits_jumpIfFalse (v : Operand) {s : Nat} {p : Program} (hs : s < 2 ^ 64)
    (hle : s ≤ p.size + slack) (hl : Lands F.functions p s) :
    Admits F.functions (F.Idle c m) p slack (.jumpIfFalse v s) where
  shaped := .jumpIfFalse _ _
  writes a hw := absurd hw (Instruction.not_writesTo rfl)
  leads t ht := by
    rw [Instruction.jumpTarget?_jumpIfFalse_eq] at ht
    obtain rfl := eq_of_index?_direct hs ht
    exact ⟨hle, hl⟩

theorem moves_append (m : Memory) (content : Option Instruction) :
    F.Moves c m F { m with program := m.program.push content } :=
  .of_le (Nat.le_refl _) fun t ht =>
    ⟨by rw [Array.size_push]; exact Nat.le_succ_of_le ht.1, ht.2.push ht.1⟩

theorem moves_fill (m : Memory) {slot : Nat} (hi : i.target? = none) :
    F.Moves c m F { m with program := m.program.setIfInBounds slot (some i) } :=
  .of_le (Nat.le_refl _) fun t ht =>
    ⟨by rw [Array.size_setIfInBounds]; exact ht.1, ht.2.fill hi⟩

namespace Holds

theorem relax (h : F.Holds c m slack) (k : Nat) : F.Holds c m (slack + k) :=
  { h with code := h.code.mono (fun _ h => h) (Nat.le_add_right _ _) }

/-- A program has fewer slots than there are words. -/
theorem size_le (h : F.Holds E.config m slack) : m.program.size ≤ 2 ^ 63 := by
  obtain ⟨k, hk⟩ := h.regular.data
  have hsize := h.regular.size
  have hdata := h.regular.data_le
  have hzones := E.zones
  have hsmall := E.small
  omega

/-- **A slot is appended.** -/
theorem append (h : F.Holds c m (slack + 1)) (hlt : m.program.size < m.programSize)
    (hi : ∀ i, content = some i → Admits F.functions (F.Idle c m) m.program (slack + 1) i) :
    F.Holds c { m with program := m.program.push content } slack :=
  { h with
    regular := { h.regular with
      size := by
        rw [Array.size_push]
        exact Nat.succ_le_of_lt (h.regular.programSize ▸ hlt) }
    code := h.code.push hi
    starts := fun f hf => (moves_append (c := c) m content).reaches _ (h.starts f hf) }

/-- **A slot that is reserved is filled.** -/
theorem fill {slot : Nat} (h : F.Holds c m slack) (hs : m.program[slot]? = some none)
    (hi : Admits F.functions (F.Idle c m) m.program slack i) (hnone : i.target? = none) :
    F.Holds c { m with program := m.program.setIfInBounds slot (some i) } slack :=
  { h with
    regular := { h.regular with
      size := by
        rw [Array.size_setIfInBounds]
        exact h.regular.size }
    code := h.code.fill hs hi hnone
    starts := fun f hf => (moves_fill (c := c) m hnone).reaches _ (h.starts f hf) }

/-- **A call is appended.** -/
theorem call {f : FunctionInfo} (h : F.Holds E.config m 0) (hf : F.functions f)
    (hlt : m.program.size + 1 < m.programSize) :
    F.Holds E.config { m with program := ((m.program.push (some (.assign
      (.immediate (m.program.size + 2)) (.direct f.returnCell)))).push (some (.jump f.start))) } 0 := by
  have hbelow := h.below _ (.inr ⟨f, hf, rfl⟩)
  have hdata := h.regular.data_le
  have hzones := E.zones
  have hsmall := E.small
  have hsize := h.size_le
  have hstart := h.starts f hf
  have hprogram := h.regular.programSize
  refine
    { h with
      regular := { h.regular with size := ?_ }
      code := h.code.call (by omega) ?_ (fun f' hf' => h.unique f f' hf hf') ?_ hstart.1 hstart.2
      starts := fun f' hf' => ?_ }
  · simp only [Array.size_push]
    omega
  · have hle := hstart.1
    have hbound := h.regular.size
    obtain ⟨k, hk⟩ := h.regular.data
    omega
  · rintro (hc | ⟨hle, -⟩)
    · exact h.apart f hf hc
    · omega
  · exact ((moves_append (c := E.config) m _).trans (moves_append _ _)).reaches _ (h.starts f' hf')

/-- **The next cell in line** may be written. -/
theorem takeNextCell (h : F.Holds E.config m slack) (htake : m.takeNextCell = .ok (a, m')) :
    F.Holds E.config m' slack ∧ F.Moves E.config m F m' ∧ F.Leaves E.config m' a ∧ a = m.dataNext := by
  obtain ⟨hcell, hregular, hle, heq⟩ := Memory.takeNextCell_spec h.regular E.unit_pos htake
  obtain ⟨rfl, -⟩ := Memory.takeNextCell_eq_ok htake
  have hprogram : m'.program = m.program := by rw [heq]
  have hmoves : F.Moves E.config m F m' := .of_le hle fun t ht => by rwa [Reaches, hprogram]
  have hlow := hregular.data_le
  have hzones := E.zones
  have hsmall := E.small
  have hbelow := hcell.1
  refine ⟨?_, hmoves, ⟨by omega, fun f hf heq => ?_, ?_⟩, rfl⟩
  · exact
      { h with
        regular := hregular
        spare := by
          rw [heq]
          exact h.spare
        code := by
          rw [hprogram]
          exact h.code.mono (fun b => Or.imp_right (And.imp_left (Nat.le_trans hle))) (Nat.le_refl _)
        below := fun b hb => Nat.lt_of_lt_of_le (h.below b hb) hle
        starts := fun f hf => hmoves.reaches _ (h.starts f hf) }
  · exact Nat.ne_of_lt (h.below _ (.inr ⟨f, hf, rfl⟩)) heq
  · rintro (hc | ⟨hc, -⟩)
    · exact Nat.lt_irrefl _ (h.below _ (.inl hc))
    · omega

/-- **A cell for a variable** is the next in line, as none is free. -/
theorem takeCell (h : F.Holds E.config m slack) (htake : m.takeCell = .ok (a, m')) :
    F.Holds E.config m' slack ∧ F.Moves E.config m F m' ∧ F.Leaves E.config m' a ∧ a = m.dataNext := by
  rw [Memory.takeCell_eq, h.spare] at htake
  exact h.takeNextCell htake

/-- **A temporary** may be written. -/
theorem withTemp (h : F.Holds E.config m slack) (hle : m.tempNext + m.unit ≤ m.capacity) :
    F.Holds E.config { m with tempNext := m.tempNext + m.unit } slack ∧
      F.Leaves E.config m m.tempNext := by
  have hfrom := h.regular.from_le
  have htemps := h.regular.tempsFrom
  have hcapacity := h.regular.capacity
  have hunit := h.regular.unit
  have hpos := E.unit_pos
  have hdata := h.regular.data_le
  have hsmall := E.small
  refine ⟨{ h with regular := h.regular.withTemp hle }, by omega, fun f hf heq => ?_, ?_⟩
  · have hbelow := h.below _ (.inr ⟨f, hf, rfl⟩)
    omega
  · rintro (hc | ⟨-, hc⟩)
    · have hbelow := h.below _ (.inl hc)
      omega
    · omega

theorem dropTemp (h : F.Holds c m slack) (a : Nat) : F.Holds c (m.dropTemp a) slack := by
  have hregular := h.regular.dropTemp a
  unfold Memory.dropTemp at hregular ⊢
  split
  · rename_i hl
    rw [if_pos hl] at hregular
    exact { h with regular := hregular }
  · exact h

end Holds

/-- The fence with one more cell of a function whose parameters are being read. -/
def opening (F : Fence) (a : Nat) : Fence := { F with opened := fun b => b = a ∨ F.opened b }

/-- The fence with a function that can be called from now on. -/
def publishing (F : Fence) (f : FunctionInfo) : Fence where
  functions f' := f' = f.bare ∨ F.functions f'
  opened a := F.opened a ∧ a ≠ f.returnCell

/-- **A cell is handed out for a slot to return to,** and is not written. -/
theorem Holds.opening (h : F.Holds E.config m slack) (htake : m.takeCell = .ok (a, m')) :
    (F.opening a).Holds E.config m' slack ∧ F.Moves E.config m (F.opening a) m' := by
  obtain ⟨h', hmoves, -, rfl⟩ := h.takeCell htake
  obtain ⟨hcell, -, hle, heq⟩ := Memory.takeCell_spec h.regular E.unit_pos htake
  have hprogram : m'.program = m.program := by rw [heq]
  have hdata := h'.regular.data_le
  have hidle : ∀ b, (F.opening m.dataNext).Idle E.config m' b → F.Idle E.config m b := by
    rintro b ((rfl | hb) | ⟨hnext, hlt⟩)
    · exact .inr ⟨Nat.le_refl _, Nat.lt_of_lt_of_le hcell.1 hdata⟩
    · exact .inl hb
    · exact .inr ⟨Nat.le_trans hle hnext, hlt⟩
  refine ⟨{ h' with code := ?_, below := ?_, apart := ?_ }, fun _ hf => hf, fun b hb => hb.mono hidle,
    hmoves.reaches⟩
  · rw [hprogram]
    exact h.code.mono hidle (Nat.le_refl _)
  · rintro b ((rfl | hb) | hb)
    · exact hcell.1
    · exact h'.below b (.inl hb)
    · exact h'.below b (.inr hb)
  · rintro f hf (heq | hb)
    · exact Nat.ne_of_lt (h.below _ (.inr ⟨f, hf, rfl⟩)) heq
    · exact h.apart f hf hb

/-- **A function can be called,** whose return cell has not been written yet. -/
theorem Holds.publishing {f : FunctionInfo} (h : F.Holds c m slack) (hopened : F.opened f.returnCell)
    (hstart : F.Reaches m f.start) :
    (F.publishing f).Holds c m slack ∧ F.Moves c m (F.publishing f) m := by
  have hidle : ∀ b, (F.publishing f).Idle c m b → F.Idle c m b := fun b => Or.imp_left And.left
  have hnever : ∀ k i, Target.Holds m.program k i → ¬i.WritesTo f.returnCell := fun k i hi hw =>
    h.code.idle k i _ hi hw (.inl hopened)
  have hlands : ∀ t, Lands F.functions m.program t →
      Lands (F.publishing f).functions m.program t := by
    rintro t ht f' k i (rfl | hf') hi hw
    · exact absurd hw (hnever k i hi)
    · exact ht f' k i hf' hi hw
  have hreaches : ∀ t, F.Reaches m t → (F.publishing f).Reaches m t := fun t ht =>
    ⟨ht.1, hlands t ht.2⟩
  refine ⟨{ h with code := ?_, below := ?_, apart := ?_, unique := ?_, starts := ?_ },
    fun _ hf => .inr hf, fun b hb => ⟨hb.small, ?_, fun hc => hb.idle (hidle b hc)⟩, hreaches⟩
  · refine ⟨h.code.shaped, ?_, fun k i b hi hw hc => h.code.idle k i b hi hw (hidle b hc),
      fun k t hl => (h.code.leads k t hl).imp_right (hlands t)⟩
    rintro f' k i (rfl | hf') hi hw
    · exact absurd hw (hnever k i hi)
    · exact h.code.stores f' k i hf' hi hw
  · rintro b (⟨hb, -⟩ | ⟨f', rfl | hf', rfl⟩)
    · exact h.below b (.inl hb)
    · exact h.below _ (.inl hopened)
    · exact h.below _ (.inr ⟨f', hf', rfl⟩)
  · rintro f' (rfl | hf') ⟨hb, hne⟩
    · exact hne rfl
    · exact h.apart f' hf' hb
  · rintro f₁ f₂ (rfl | h₁) (rfl | h₂) heq
    · rfl
    · exact absurd (heq ▸ hopened) (h.apart f₂ h₂)
    · exact absurd (heq ▸ hopened) (h.apart f₁ h₁)
    · exact h.unique f₁ f₂ h₁ h₂ heq
  · rintro f' (rfl | hf')
    · exact hreaches _ hstart
    · exact hreaches _ (h.starts f' hf')
  · rintro f' (rfl | hf') rfl
    · exact hb.idle (.inl hopened)
    · exact hb.function f' hf' rfl

end Fence

end OnePass.Emission
