import OnePass.Proofs.Target.Machine

/-!
# Code that prints nothing

The code of a value leaves it in a temporary. It prints nothing, and what lies below the
temporaries that it takes stays as it is, so that operands from before keep their values.

* `Silent`: a run of such code. `Operand.Steady`, `Operand.Below`: what it does not change.
* `PowerLoop.runs`: the code of a power counts up to the exponent, and so comes to its end.
-/

namespace OnePass.Target

open Emission (powerCode)

/-- **A run that prints nothing** and leaves the cells below an address as they are. -/
structure Silent (p : Program) (limit : Nat) (s s' : State) : Prop where
  reaches : Reaches p s s'
  output : s'.output = s.output
  stays : ∀ a : Int, a < limit → s'.cells a = s.cells a

section Silent

variable {p : Program} {s s' s'' : State} {limit limit' d t : Nat} {v : Int} {o : Operand}

namespace Silent

theorem refl (p : Program) (limit : Nat) (s : State) : Silent p limit s s :=
  ⟨.refl p s, rfl, fun _ _ => rfl⟩

theorem cells (h : Silent p limit s s') (a : Nat) (ha : a < limit) : s'.cells a = s.cells a :=
  h.stays a (Int.ofNat_lt.2 ha)

theorem trans (h : Silent p limit s s') (h' : Silent p limit s' s'') : Silent p limit s s'' :=
  ⟨h.reaches.trans h'.reaches, h'.output.trans h.output,
    fun a ha => (h'.stays a ha).trans (h.stays a ha)⟩

theorem mono (h : Silent p limit s s') (hle : limit' ≤ limit) : Silent p limit' s s' :=
  ⟨h.reaches, h.output, fun a ha => h.stays a (Int.lt_of_lt_of_le ha (Int.ofNat_le.2 hle))⟩

theorem goTo (h : step? p s = some (s.goTo t)) (limit : Nat) : Silent p limit s (s.goTo t) :=
  ⟨.single h, rfl, fun _ _ => rfl⟩

end Silent

@[simp] theorem State.slot_goTo (s : State) (t : Nat) : (s.goTo t).slot = t := rfl

@[simp] theorem State.cells_goTo (s : State) (t : Nat) : (s.goTo t).cells = s.cells := rfl

theorem State.cells_write (s : State) (d : Nat) (v : Int) (a : Nat) :
    (s.write d v).cells a = if a = d then v else s.cells a := by
  change Function.update s.cells (d : Int) v a = _
  simp only [Function.update_apply, Int.natCast_inj]

theorem Silent.write (h : step? p s = some (s.write d v)) (hd : limit ≤ d) :
    Silent p limit s (s.write d v) :=
  ⟨.single h, rfl, fun a ha => Function.update_of_ne (by omega) _ _⟩

/-- **An operand with the same value** as long as the cells below an address are as they are. -/
def Operand.Steady (limit : Nat) (cells : Cells) (o : Operand) : Prop :=
  ∀ cells' : Cells, (∀ a : Int, a < limit → cells' a = cells a) → o.read cells' = o.read cells

/-- It stays so as long as they do. -/
theorem Operand.Steady.silent (h : o.Steady limit s.cells) (hs : Silent p limit s s') :
    o.Steady limit s'.cells := fun cells' hc =>
  (h cells' fun a ha => (hc a ha).trans (hs.stays a ha)).trans (h s'.cells hs.stays).symm

theorem Operand.Steady.mono {cells : Cells} (h : o.Steady limit cells) (hle : limit ≤ limit') :
    o.Steady limit' cells := fun cells' hc =>
  h cells' fun a ha => hc a (Int.lt_of_lt_of_le ha (Int.ofNat_le.2 hle))

/-- **An operand that is a number,** or names a cell below an address. -/
def Operand.Below (limit : Nat) (o : Operand) : Prop :=
  (∃ v, o = .immediate v) ∨ ∃ a < limit, o = .direct a

theorem Operand.Below.mono (h : o.Below limit') (hle : limit' ≤ limit) : o.Below limit :=
  h.imp_right fun ⟨a, ha, heq⟩ => ⟨a, Nat.lt_of_lt_of_le ha hle, heq⟩

/-- What lies below keeps its value. -/
theorem Operand.Below.read_eq (h : o.Below limit) (hlimit : limit ≤ 2 ^ 63) {cells cells' : Cells}
    (hc : ∀ a : Nat, a < limit → cells' a = cells a) : o.read cells' = o.read cells := by
  obtain ⟨v, rfl⟩ | ⟨a, ha, rfl⟩ := h
  · rfl
  · have hlt : a < 2 ^ 63 := Nat.lt_of_lt_of_le ha hlimit
    rw [read_direct hlt, read_direct hlt, hc a ha]

theorem Operand.Below.steady (h : o.Below limit) (hlimit : limit ≤ 2 ^ 63) (cells : Cells) :
    o.Steady limit cells := fun _ hc => h.read_eq hlimit fun a ha => hc a (Int.ofNat_lt.2 ha)

/-- What lies below, at an address that a cell below holds, keeps its value. -/
theorem Operand.steady_indirect {a : Nat} (ha : a < limit) (hword : a < 2 ^ 63) {cells : Cells}
    (hlow : cells a < limit) : (Operand.indirect a).Steady limit cells := fun cells' hc => by
  rw [read_indirect hword, read_indirect hword, hc a (Int.ofNat_lt.2 ha), hc _ hlow]

/-- **The code of an element's address** leaves it in the later of two temporaries. -/
theorem silent_address {base index : Operand} {u : Int} {first offset address : Nat}
    (hmult : Holds p first (.binary .mult index (.immediate u) (.direct offset)))
    (hadd : Holds p (first + 1) (.binary .add base (.direct offset) (.direct address)))
    (horder : offset < address) (hword : address < 2 ^ 63) (hbase : base.Steady offset s.cells)
    (hslot : s.slot = first) : ∃ s', Silent p offset s s' ∧ s'.slot = first + 2 ∧
      s'.cells address = base.read s.cells + index.read s.cells * u := by
  have hmult : Target.step? p s = some (s.write offset (index.read s.cells * u)) :=
    Holds.binary (hslot ▸ hmult) (by omega) rfl
  generalize hs₁ : s.write offset (index.read s.cells * u) = s₁ at hmult
  have hslot₁ : s₁.slot = first + 1 := hs₁ ▸ congrArg (· + 1) hslot
  have hsilent₁ : Silent p offset s s₁ := hs₁ ▸ .write (hs₁ ▸ hmult) (Nat.le_refl _)
  have hadd : Target.step? p s₁ =
      some (s₁.write address (base.read s.cells + index.read s.cells * u)) := by
    refine Holds.binary (hslot₁ ▸ hadd) hword ?_
    rw [hbase _ hsilent₁.stays, Operand.read_direct (by omega), ← hs₁, State.cells_write, if_pos rfl]
    rfl
  refine ⟨_, hsilent₁.trans (.write hadd (Nat.le_of_lt horder)), congrArg (· + 1) hslot₁, ?_⟩
  rw [State.cells_write, if_pos rfl]

end Silent

section Power

/-- **The code of a power in a program,** with its three cells one above the other. -/
structure PowerLoop (p : Program) (base exponent : Operand) (result counter running first : Nat) :
    Prop where
  holds : ∀ k i, (powerCode base exponent result counter running first)[k]? = some i →
    Holds p (first + k) i
  order : result < counter ∧ counter < running
  cells : running < 2 ^ 63
  slots : first + 7 < 2 ^ 63

namespace PowerLoop

variable {p : Program} {base exponent : Operand} {result counter running first : Nat} {s : State}

/-- What holds of the instruction in a slot of the code. -/
theorem holds_of_slot (h : PowerLoop p base exponent result counter running first) {k : Nat}
    {i : Instruction} (hslot : s.slot = first + k)
    (hi : (powerCode base exponent result counter running first)[k]? = some i) :
    Holds p s.slot i := hslot ▸ h.holds k i hi

/-- The test lets the loop go on while the counter is less than the exponent. -/
theorem test (h : PowerLoop p base exponent result counter running first)
    (hslot : s.slot = first + 2) : ∃ s', Silent p running s s' ∧
      s'.slot = if s.cells counter < exponent.read s.cells then first + 4 else first + 7 := by
  obtain ⟨-, horder⟩ := h.order
  have hcells := h.cells
  have hslots := h.slots
  have hless : Target.step? p s = some (s.write running
      (if s.cells counter < exponent.read s.cells then 1 else 0)) := by
    have hholds : Holds p s.slot (.binary .lt (.direct counter) exponent (.direct running)) :=
      h.holds_of_slot hslot rfl
    refine hholds.binary hcells ?_
    rw [Operand.read_direct (by omega)]
    rfl
  generalize hv : (if s.cells counter < exponent.read s.cells then 1 else 0 : Int) = v at hless
  have hslot' : (s.write running v).slot = first + 3 := congrArg (· + 1) hslot
  have hjump := Holds.jumpIfFalse (h.holds_of_slot hslot' rfl) (by omega)
  rw [Operand.read_direct hcells, State.cells_write, if_pos rfl] at hjump
  refine ⟨_, (Silent.write hless (Nat.le_refl _)).trans (.goTo hjump running), ?_⟩
  rw [State.slot_goTo, hslot', ← hv]
  split <;> rfl

/-- A turn multiplies and counts. -/
theorem turn (h : PowerLoop p base exponent result counter running first)
    (hslot : s.slot = first + 4) : ∃ s', Silent p result s s' ∧ s'.slot = first + 2 ∧
      s'.cells counter = s.cells counter + 1 ∧
        s'.cells result = s.cells result * base.read s.cells := by
  obtain ⟨hcounter, hrunning⟩ := h.order
  have hcells := h.cells
  have hslots := h.slots
  have hmult : Target.step? p s =
      some (s.write result (s.cells result * base.read s.cells)) := by
    have hholds : Holds p s.slot (.binary .mult (.direct result) base (.direct result)) :=
      h.holds_of_slot hslot rfl
    refine hholds.binary (by omega) ?_
    rw [Operand.read_direct (by omega)]
    rfl
  generalize hs₁ : s.write result (s.cells result * base.read s.cells) = s₁ at hmult
  have hslot₁ : s₁.slot = first + 5 := hs₁ ▸ congrArg (· + 1) hslot
  have hcount : Target.step? p s₁ = some (s₁.write counter (s₁.cells counter + 1)) := by
    have hholds : Holds p s₁.slot (.binary .add (.direct counter) (.immediate 1) (.direct counter)) :=
      h.holds_of_slot hslot₁ rfl
    refine hholds.binary (by omega) ?_
    rw [Operand.read_direct (by omega)]
    rfl
  generalize hs₂ : s₁.write counter (s₁.cells counter + 1) = s₂ at hcount
  have hslot₂ : s₂.slot = first + 6 := hs₂ ▸ congrArg (· + 1) hslot₁
  have hback := Holds.jump (h.holds_of_slot hslot₂ rfl) (by omega)
  have hsilent₁ : Silent p result s s₁ := hs₁ ▸ .write (hs₁ ▸ hmult) (Nat.le_refl _)
  have hsilent₂ : Silent p result s₁ s₂ := hs₂ ▸ .write (hs₂ ▸ hcount) (Nat.le_of_lt hcounter)
  refine ⟨_, (hsilent₁.trans hsilent₂).trans (.goTo hback result), rfl, ?_, ?_⟩
  · rw [State.cells_goTo, ← hs₂, State.cells_write, if_pos rfl, ← hs₁, State.cells_write,
      if_neg (by omega)]
  · rw [State.cells_goTo, ← hs₂, State.cells_write, if_neg (by omega), ← hs₁, State.cells_write,
      if_pos rfl]

/-- **The loop comes to its end** when the counter has come to the exponent. -/
theorem loop (h : PowerLoop p base exponent result counter running first)
    (hbase : base.Steady result s.cells) (hexponent : exponent.Steady result s.cells) {x y : Int}
    {rest k : Nat} (hk : k + rest = y.toNat) (hslot : s.slot = first + 2)
    (hx : base.read s.cells = x) (hy : exponent.read s.cells = y) (hcount : s.cells counter = k)
    (hresult : s.cells result = x ^ k) : ∃ s', Silent p result s s' ∧ s'.slot = first + 7 ∧
      s'.cells result = x ^ y.toNat := by
  obtain ⟨hcounter, hrunning⟩ := h.order
  induction rest generalizing k s with
  | zero =>
    obtain ⟨s₁, hsilent, hslot₁⟩ := h.test hslot
    rw [hcount, hy, if_neg (by omega)] at hslot₁
    refine ⟨s₁, hsilent.mono (by omega), hslot₁, ?_⟩
    rw [hsilent.cells _ (by omega), hresult, ← hk, Nat.add_zero]
  | succ rest ih =>
    obtain ⟨s₁, hsilent, hslot₁⟩ := h.test hslot
    rw [hcount, hy, if_pos (by omega)] at hslot₁
    have hsilent₁ : Silent p result s s₁ := hsilent.mono (by omega)
    obtain ⟨s₂, hsilent₂, hslot₂, hcount₂, hresult₂⟩ := h.turn hslot₁
    have hsame := hsilent₁.trans hsilent₂
    have hx₁ := hbase s₁.cells hsilent₁.stays
    have hx₂ := hbase s₂.cells hsame.stays
    have hy₂ := hexponent s₂.cells hsame.stays
    rw [hsilent.cells _ (by omega), hcount] at hcount₂
    rw [hsilent.cells _ (by omega), hresult, hx₁, hx, ← pow_succ] at hresult₂
    obtain ⟨s₃, hsilent₃, hend⟩ := ih (k := k + 1) (hbase.silent hsame) (hexponent.silent hsame)
      (by omega) hslot₂ (hx₂.trans hx) (hy₂.trans hy) (by rw [hcount₂]; rfl) hresult₂
    exact ⟨s₃, hsame.trans hsilent₃, hend⟩

/-- **The code of a power** leaves the power, and an exponent below zero counts as zero. -/
theorem runs (h : PowerLoop p base exponent result counter running first)
    (hbase : base.Steady result s.cells) (hexponent : exponent.Steady result s.cells)
    (hslot : s.slot = first) : ∃ s', Silent p result s s' ∧ s'.slot = first + 7 ∧
      s'.cells result = base.read s.cells ^ (exponent.read s.cells).toNat := by
  obtain ⟨hcounter, hrunning⟩ := h.order
  have hcells := h.cells
  have hone : Target.step? p s = some (s.write result 1) :=
    Holds.assign (h.holds_of_slot (k := 0) hslot rfl) (by omega)
  generalize hs₁ : s.write result 1 = s₁ at hone
  have hslot₁ : s₁.slot = first + 1 := hs₁ ▸ congrArg (· + 1) hslot
  have hzero : Target.step? p s₁ = some (s₁.write counter 0) :=
    Holds.assign (h.holds_of_slot hslot₁ rfl) (by omega)
  generalize hs₂ : s₁.write counter 0 = s₂ at hzero
  have hslot₂ : s₂.slot = first + 2 := hs₂ ▸ congrArg (· + 1) hslot₁
  have hsilent₁ : Silent p result s s₁ := hs₁ ▸ .write (hs₁ ▸ hone) (Nat.le_refl _)
  have hsilent₂ : Silent p result s₁ s₂ := hs₂ ▸ .write (hs₂ ▸ hzero) (Nat.le_of_lt hcounter)
  have hsame := hsilent₁.trans hsilent₂
  obtain ⟨s₃, hsilent₃, hend⟩ := h.loop (k := 0) (hbase.silent hsame) (hexponent.silent hsame)
    (Nat.zero_add _) hslot₂ (hbase s₂.cells hsame.stays) (hexponent s₂.cells hsame.stays)
    (by rw [← hs₂, State.cells_write, if_pos rfl]; rfl)
    (by
      rw [← hs₂, State.cells_write, if_neg (by omega), ← hs₁, State.cells_write, if_pos rfl,
        pow_zero])
  exact ⟨s₃, hsame.trans hsilent₃, hend⟩

end PowerLoop

/-- **The code of a power** whose operands lie below its cells. -/
structure PowerCode (p : Program) (base exponent : Operand) (result counter running first : Nat) :
    Prop extends PowerLoop p base exponent result counter running first where
  below : base.Below result ∧ exponent.Below result

theorem PowerCode.runs {p : Program} {base exponent : Operand}
    {result counter running first : Nat} {s : State}
    (h : PowerCode p base exponent result counter running first) (hslot : s.slot = first) :
    ∃ s', Silent p result s s' ∧ s'.slot = first + 7 ∧
      s'.cells result = base.read s.cells ^ (exponent.read s.cells).toNat := by
  have hle : result ≤ 2 ^ 63 := by
    have := h.order
    have := h.cells
    omega
  exact h.toPowerLoop.runs (h.below.1.steady hle _) (h.below.2.steady hle _) hslot

end Power

end OnePass.Target
