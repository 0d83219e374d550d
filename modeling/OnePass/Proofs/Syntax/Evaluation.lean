import OnePass.Proofs.Syntax.Agreement
import OnePass.Proofs.Target.Silent

/-!
# The code of a value computes it

The code of a value prints nothing and leaves the value in the operand that is pushed. The
operand is a number, a cell that a name is bound to, or a temporary that is not taken again,
so that it keeps its value while the code of another value runs.

* `Trace.Runnable`: a trace without errors, and the program that it comes to.
* `Yields`: the operand of a value. `Yields.operate`, `Yields.power`: operators.
* `Expr.yields`, `Relation.yields`: every value without calls and elements is computed.
-/

namespace OnePass.Derivation

open Emission Names Target Syntax
open Grammar (Action Mark Terminal)

/-- **A trace without errors, and the program that it comes to.** Numbers can be read, and all
addresses are words. -/
structure Trace.Runnable {E : Setting} {w : List Mark} (tr : Trace E w) (c : Config) (p : Program) :
    Prop extends tr.Into p, tr.Clean c where
  numbers : ∀ {i : Nat} {x : String}, w[i]? = some (.read .number x) →
    Decimal.signed64? x.toList = some (Decimal.value x.toList : Int)
  unit : 0 < c.unit
  capacity : c.capacity ≤ 2 ^ 63

/-- The temporary that is next before a mark. -/
def Trace.temps {E : Setting} {w : List Mark} (tr : Trace E w) (i : Nat) : Nat :=
  (tr.state i).memory.tempNext

end OnePass.Derivation

namespace OnePass.Syntax

open OnePass.Derivation Emission Names Target
open Grammar (Action Mark Terminal)

/-- The cells of all names that can be read hold what they should. -/
def Bindings.Known (b : Bindings) (cells : Cells) (σ : Store) : Prop :=
  ∀ x a, b.read? x = some a → cells a = σ a

section Settled

variable {c : Config} {g : Generator} {b : Bindings} {x : String} {row a : Nat}

/-- Temporaries lie in their zone. -/
theorem Settled.temps (h : Settled c g) :
    c.tempsFrom ≤ g.memory.tempNext ∧ g.memory.tempNext ≤ c.capacity ∧ g.memory.unit = c.unit ∧
      g.memory.tempsFrom = c.tempsFrom ∧ g.memory.capacity = c.capacity := by
  obtain ⟨_, _, _, hkept⟩ := h.kept
  have hmemory := hkept.owned.memory
  obtain ⟨k, hk⟩ := hmemory.temps
  exact ⟨hk ▸ Nat.le_add_right _ _, hmemory.temps_le, hmemory.unit, hmemory.tempsFrom,
    hmemory.capacity⟩

/-- Variables lie below the temporaries. -/
theorem Settled.lt_of_sees (h : Settled c g) (hs : g.symbols.Sees row a) : a < c.tempsFrom := by
  obtain ⟨_, _, _, hkept⟩ := h.kept
  obtain ⟨⟨⟨hlt, -⟩, -⟩, -⟩ := hkept.owned.seen row a hs
  exact Nat.lt_of_lt_of_le hlt hkept.owned.memory.data_le

/-- A name that can be read is a variable in sight. -/
theorem Agrees.sees_of_read? (h : Agrees b g) (hx : b.read? x = some a) :
    ∃ row, g.symbols.Sees row a := by
  rw [← h.read? x] at hx
  obtain ⟨row, -, hsees⟩ := SymbolTable.exists_sees_of_resolve hx
  exact ⟨row, hsees⟩

end Settled

/-- The instruction of an operator. -/
def Operator.opcode : Operator → Opcode
  | add => .add
  | sub => .sub
  | mult => .mult

theorem Operator.value?_opcode (op : Operator) (x y : Int) :
    op.opcode.value? x y = some (op.apply x y) := by cases op <;> rfl

theorem Operator.ends_perform {op : Operator} {g : Generator} {line : Nat} {lexeme : String}
    {o₁ o₂ : Operand} {st : OperandStack} (h : g.stack = o₂ :: o₁ :: st) :
    Ends (perform op.action lexeme line) g fun _ g' =>
      ∃ g₁, Took line [o₂, o₁] g st g₁ ∧ g' = g₁.operated op.opcode o₁ o₂ := by
  cases op <;> exact ends_combine_eq h

/-- What a relation leaves between its two sides. -/
def Relation.mark (r : Relation) : Operand := .immediate (if r.equal then 0 else 1)

theorem Relation.ends_marker (r : Relation) {g : Generator} {line : Nat} {lexeme : String} :
    Ends (perform r.marker lexeme line) g fun _ g' => g' = g.push r.mark := by
  unfold Relation.marker Relation.mark
  split <;> exact ends_push.2 rfl

theorem Relation.value?_relation (r : Relation) (b : Bindings) (σ : Store) :
    (relation r.mark).value? (r.left.eval b σ) (r.right.eval b σ) =
      some (if r.holds b σ then 1 else 0) := by
  unfold relation Relation.mark Relation.holds
  cases r.equal <;> simp [Operand.immediate, Opcode.value?]

section Code

variable {E : Setting} {w : List Mark} {tr : Trace E w} {c : Config} {m : Nat} {o₁ o₂ : Operand}
  {g : Generator} (hs : Settled c (tr.state m)) (hg : g.memory = (tr.state m).memory)
include hs hg

/-- **The code of an operator** is one instruction, and takes a temporary. -/
theorem Trace.operated {op : Opcode} (hstate : tr.state (m + 1) = g.operated op o₁ o₂) :
    tr.temps (m + 1) = tr.temps m + c.unit ∧ tr.slots (m + 1) = tr.slots m + 1 ∧
      Holds (tr.state (m + 1)).memory.program (tr.slots m)
        (.binary op o₁ o₂ (.direct (tr.temps m))) := by
  have hunit := hs.temps.2.2.1
  have htemp : tr.temps (m + 1) = tr.temps m + c.unit := by
    rw [Trace.temps, hstate]
    change g.memory.tempNext + g.memory.unit = _
    rw [hg, hunit]
    rfl
  have hprogram : (tr.state (m + 1)).memory.program = (tr.state m).memory.program.push
      (some (.binary op o₁ o₂ (.direct (tr.temps m)))) := by
    rw [hstate, Trace.temps, ← hg]
    rfl
  have hslots : tr.slots (m + 1) = tr.slots m + 1 := by
    rw [tr.slots_eq, hprogram, Array.size_push, ← tr.slots_eq]
  exact ⟨htemp, hslots, hprogram ▸ holds_push _ _⟩

/-- **The code of a power** takes three temporaries, of which two are given back. -/
theorem Trace.powered (hact : w[m]? = some (.act .power))
    (hstate : tr.state (m + 1) = g.withPower o₁ o₂) :
    tr.temps m + 3 * c.unit ≤ c.capacity ∧ tr.temps (m + 1) = tr.temps m + c.unit ∧
      tr.slots (m + 1) = tr.slots m + 7 ∧
        ∀ k i, (powerCode o₁ o₂ (tr.temps m) (tr.temps m + c.unit) (tr.temps m + c.unit + c.unit)
          (tr.slots m))[k]? = some i → Holds (tr.state (m + 1)).memory.program (tr.slots m + k) i := by
  obtain ⟨hfrom, -, hunit, hzone, hcapacity⟩ := hs.temps
  obtain ⟨hroom, htemp⟩ := tr.of_ends hact (spends_raise (hzone.symm ▸ hfrom))
  have htemp : tr.temps (m + 1) = tr.temps m + c.unit := by
    rw [hunit] at htemp
    change tr.temps (m + 1) + 2 * c.unit = tr.temps m + 3 * c.unit at htemp
    omega
  have hroom : tr.temps m + 3 * c.unit ≤ c.capacity := by
    rw [hunit, hcapacity] at hroom
    exact hroom
  have hnext : g.memory.tempNext = tr.temps m := congrArg Memory.tempNext hg
  have hunit' : g.memory.unit = c.unit := hg ▸ hunit
  have hprogram := program_withPower g o₁ o₂
  rw [← hstate, Generator.tempNext_withTemp, Generator.tempNext_withTemp, Generator.unit_withTemp,
    Generator.tempNext_withTemp, hnext, hunit', Generator.programNext, hg] at hprogram
  have hslots : tr.slots (m + 1) = tr.slots m + 7 := by
    rw [tr.slots_eq, hprogram, Array.size_append, ← tr.slots_eq]
    rfl
  exact ⟨hroom, htemp, hslots, fun k i hk => hprogram ▸ holds_append hk⟩

end Code

section Yields

variable {E : Setting} {w : List Mark}

/-- **The operand of a value** that is compiled between two marks. Its code prints nothing, changes
no cell below the temporaries that it takes, and leaves the value in the operand. -/
structure Yields (tr : Trace E w) (p : Program) (b : Bindings) (i j : Nat) (o : Operand)
    (v : Store → Int) : Prop where
  temps : tr.temps i ≤ tr.temps j
  below : o.Below (tr.temps j)
  runs : ∀ s σ, s.slot = tr.slots i → b.Known s.cells σ →
    ∃ s', Silent p (tr.temps i) s s' ∧ s'.slot = tr.slots j ∧ o.read s'.cells = v σ

variable {tr : Trace E w} {p : Program} {b : Bindings} {c : Config} {i i' j j' n m : Nat}
  {o o₁ o₂ : Operand} {v v₁ v₂ : Store → Int} {a : Action}

/-- Only the memory image at the two marks matters. -/
theorem Yields.congr (h : Yields tr p b i j o v)
    (hi : (tr.state i').memory = (tr.state i).memory)
    (hj : (tr.state j').memory = (tr.state j).memory) : Yields tr p b i' j' o v := by
  have htemps : tr.temps i' = tr.temps i := congrArg Memory.tempNext hi
  have htemps' : tr.temps j' = tr.temps j := congrArg Memory.tempNext hj
  have hslots : tr.slots i' = tr.slots i := congrArg Memory.programNext hi
  have hslots' : tr.slots j' = tr.slots j := congrArg Memory.programNext hj
  refine ⟨?_, ?_, ?_⟩
  · rw [htemps, htemps']
    exact h.temps
  · rw [htemps']
    exact h.below
  · rw [htemps, hslots, hslots']
    exact h.runs

/-- Where no code is needed, the operand has its value already. -/
theorem yields_of_memory_eq (hj : (tr.state j).memory = (tr.state i).memory)
    (ho : o.Below (tr.temps i)) (hv : ∀ cells σ, b.Known cells σ → o.read cells = v σ) :
    Yields tr p b i j o v := by
  have hself : Yields tr p b i i o v :=
    ⟨Nat.le_refl _, ho, fun s σ hs hk => ⟨s, .refl p _ s, hs, hv s.cells σ hk⟩⟩
  exact hself.congr rfl hj

/-- Silent code below which all names lie leaves them known. -/
theorem Bindings.Known.silent {s s' : State} {σ : Store} {limit : Nat} (h : b.Known s.cells σ)
    (hs : Silent p limit s s') (hlow : ∀ x a, b.read? x = some a → a < limit) :
    b.Known s'.cells σ := fun x a ha => (hs.cells a (hlow x a ha)).trans (h x a ha)

section Runnable

variable (hr : tr.Runnable c p)
include hr

theorem Trace.temps_le (hi : i ≤ w.length) : tr.temps i ≤ 2 ^ 63 := by
  obtain ⟨-, hle, -⟩ := (hr.settled i hi).temps
  exact Nat.le_trans hle hr.capacity

/-- Names lie below all temporaries. -/
theorem Trace.read_lt_temps (hi : i ≤ w.length) (hb : Agrees b (tr.state i)) {x : String} {d : Nat}
    (hx : b.read? x = some d) : d < tr.temps i := by
  have hsettled := hr.settled i hi
  obtain ⟨row, hsees⟩ := hb.sees_of_read? hx
  exact Nat.lt_of_lt_of_le (hsettled.lt_of_sees hsees) hsettled.temps.1

/-- **Two values, one behind the other.** The first keeps its value while the second is computed. -/
theorem Yields.both (h₁ : Yields tr p b i n o₁ v₁) (h₂ : Yields tr p b n m o₂ v₂)
    (hi : i ≤ w.length) (hn : n ≤ w.length) (hb : Agrees b (tr.state i)) {s : State} {σ : Store}
    (hs : s.slot = tr.slots i) (hk : b.Known s.cells σ) :
    ∃ s', Silent p (tr.temps i) s s' ∧ s'.slot = tr.slots m ∧ o₁.read s'.cells = v₁ σ ∧
      o₂.read s'.cells = v₂ σ := by
  obtain ⟨s₁, hsilent₁, hslot₁, hv₁⟩ := h₁.runs s σ hs hk
  have hk₁ := hk.silent hsilent₁ fun x a hx => Trace.read_lt_temps hr hi hb hx
  obtain ⟨s₂, hsilent₂, hslot₂, hv₂⟩ := h₂.runs s₁ σ hslot₁ hk₁
  refine ⟨s₂, hsilent₁.trans (hsilent₂.mono h₁.temps), hslot₂, ?_, hv₂⟩
  rw [h₁.below.read_eq (Trace.temps_le hr hn) hsilent₂.cells, hv₁]

/-- **An operation** on two values. -/
theorem Yields.operate (h₁ : Yields tr p b i n o₁ v₁) (h₂ : Yields tr p b n m o₂ v₂)
    (hi : i ≤ n) (hn : n ≤ m) (hb : Agrees b (tr.state i)) (hact : w[m]? = some (.act a))
    {g : Generator} {op : Opcode} (hg : g.memory = (tr.state m).memory)
    (hstate : tr.state (m + 1) = g.operated op o₁ o₂)
    (hv : ∀ σ, op.value? (v₁ σ) (v₂ σ) = some (v σ)) :
    Yields tr p b i (m + 1) (.direct (tr.temps m)) v := by
  have hlt := (List.getElem?_eq_some_iff.1 hact).1
  have hpos := hr.unit
  obtain ⟨htemp, hslots, hcode⟩ := Trace.operated (hr.settled m (Nat.le_of_lt hlt)) hg hstate
  have hholds := hr.holds hact hcode
  have hle := Nat.le_trans h₁.temps h₂.temps
  have hword : tr.temps m < 2 ^ 63 := by
    have hnext : tr.temps (m + 1) ≤ 2 ^ 63 := Trace.temps_le hr hlt
    omega
  refine ⟨by omega, .inr ⟨_, by omega, rfl⟩, fun s σ hs hk => ?_⟩
  obtain ⟨s₂, hsilent, hslot, hv₁, hv₂⟩ := h₁.both hr h₂ (by omega) (by omega) hb hs hk
  have hstep : step? p s₂ = some (s₂.write (tr.temps m) (v σ)) :=
    Holds.binary (hslot ▸ hholds) hword (by rw [hv₁, hv₂, hv])
  refine ⟨_, hsilent.trans (.write hstep hle), (congrArg (· + 1) hslot).trans hslots.symm, ?_⟩
  rw [Operand.read_direct hword, State.cells_write, if_pos rfl]

/-- **A power.** -/
theorem Yields.power (h₁ : Yields tr p b i n o₁ v₁) (h₂ : Yields tr p b n m o₂ v₂)
    (hi : i ≤ n) (hn : n ≤ m) (hb : Agrees b (tr.state i)) (hact : w[m]? = some (.act .power))
    {g : Generator} (hg : g.memory = (tr.state m).memory)
    (hstate : tr.state (m + 1) = g.withPower o₁ o₂) :
    Yields tr p b i (m + 1) (.direct (tr.temps m)) fun σ => v₁ σ ^ (v₂ σ).toNat := by
  have hlt := (List.getElem?_eq_some_iff.1 hact).1
  have hpos := hr.unit
  have hsmall := hr.capacity
  obtain ⟨hroom, htemp, hslots, hholds⟩ :=
    Trace.powered (hr.settled m (Nat.le_of_lt hlt)) hg hact hstate
  have hcode : PowerCode p o₁ o₂ (tr.temps m) (tr.temps m + c.unit) (tr.temps m + c.unit + c.unit)
      (tr.slots m) :=
    { holds := fun k i hk => hr.holds hact (hholds k i hk)
      below := ⟨h₁.below.mono h₂.temps, h₂.below⟩
      order := ⟨by omega, by omega⟩
      cells := by omega
      slots := hslots ▸ Nat.lt_of_le_of_lt (hr.extends hlt).size hr.small }
  have hle := Nat.le_trans h₁.temps h₂.temps
  have hword : tr.temps m < 2 ^ 63 := by omega
  refine ⟨by omega, .inr ⟨_, by omega, rfl⟩, fun s σ hs hk => ?_⟩
  obtain ⟨s₂, hsilent, hslot, hv₁, hv₂⟩ := h₁.both hr h₂ (by omega) (by omega) hb hs hk
  obtain ⟨s₃, hsilent', hslot', hresult⟩ := hcode.runs hslot
  refine ⟨s₃, hsilent.trans (hsilent'.mono hle), hslot'.trans hslots.symm, ?_⟩
  rw [Operand.read_direct hword, hresult, hv₁, hv₂]

/-- **Every value without calls and elements yields an operand.** -/
theorem Expr.yields : ∀ (e : Expr) {i j : Nat}, e.isPlain = true → Span w i j e.marks →
    Agrees b (tr.state i) → ∃ o, (tr.state j).stack = o :: (tr.state i).stack ∧
      Yields tr p b i j o (e.eval b)
  | .number digits, i, j, _, h, hb => by
    simp only [Expr.marks, span_cons, span_nil] at h
    obtain ⟨hread, hact, rfl⟩ := h
    have hpush := tr.of_ends hact (ends_push (Q := fun _ g => g = _).2 rfl)
    rw [tr.lexeme_read hread, hr.numbers hread, Option.getD_some] at hpush
    refine ⟨_, ?_, yields_of_memory_eq ?_ (.inl ⟨_, rfl⟩) fun _ _ _ => rfl⟩
    · rw [hpush, Generator.stack_push, tr.stack_read hread]
    · rw [hpush]
      exact tr.memory_read hread
  | .name x, i, j, _, h, hb => by
    have hlt := (List.getElem?_eq_some_iff.1 h.1).1
    obtain ⟨cell, hcell, hpush, -⟩ := reads_name hr.toClean h hb
    have hbelow := Trace.read_lt_temps hr (Nat.le_of_lt hlt) hb hcell
    have hword : cell < 2 ^ 63 := Nat.lt_of_lt_of_le hbelow (Trace.temps_le hr (Nat.le_of_lt hlt))
    refine ⟨_, ?_, yields_of_memory_eq ?_ (.inr ⟨cell, hbelow, rfl⟩) fun cells σ hk => ?_⟩
    · rw [hpush, Generator.stack_push, tr.stack_read h.1]
    · rw [hpush]
      exact tr.memory_read h.1
    · rw [Operand.read_direct hword, hk x cell hcell, Expr.eval, hcell]
      rfl
  | .power base exponent, i, j, hplain, h, hb => by
    obtain ⟨hbase, hexponent⟩ := Bool.and_eq_true_iff.1 hplain
    simp only [Expr.marks, span_cons, span_append, span_nil] at h
    obtain ⟨n, h₁, hread, m, h₂, hact, rfl⟩ := h
    have hb₁ := tr.agrees_read hread (base.agrees hr.toClean hbase h₁ hb)
    obtain ⟨o₁, hstack₁, hyields₁⟩ := base.yields hbase h₁ hb
    obtain ⟨o₂, hstack₂, hyields₂⟩ := exponent.yields hexponent h₂ hb₁
    rw [tr.stack_read hread, hstack₁] at hstack₂
    obtain ⟨g, htook, hstate⟩ := tr.of_ends hact (ends_raise_eq hstack₂)
    have hi := h₁.eq_add
    have hn := h₂.eq_add
    refine ⟨_, ?_, (hyields₁.congr rfl (tr.memory_read hread)).power hr hyields₂ (by omega)
      (by omega) hb hact htook.memory hstate⟩
    rw [hstate, Generator.stack_withPower, htook.stack, htook.memory]
    rfl
  | .combine op left right, i, j, hplain, h, hb => by
    obtain ⟨hleft, hright⟩ := Bool.and_eq_true_iff.1 hplain
    simp only [Expr.marks, span_cons, span_append, span_nil] at h
    obtain ⟨n, h₁, hread, m, h₂, hact, rfl⟩ := h
    have hb₁ := tr.agrees_read hread (left.agrees hr.toClean hleft h₁ hb)
    obtain ⟨o₁, hstack₁, hyields₁⟩ := left.yields hleft h₁ hb
    obtain ⟨o₂, hstack₂, hyields₂⟩ := right.yields hright h₂ hb₁
    rw [tr.stack_read hread, hstack₁] at hstack₂
    obtain ⟨g, htook, hstate⟩ := tr.of_ends hact (op.ends_perform hstack₂)
    have hi := h₁.eq_add
    have hn := h₂.eq_add
    refine ⟨_, ?_, (hyields₁.congr rfl (tr.memory_read hread)).operate hr hyields₂ (by omega)
      (by omega) hb hact htook.memory hstate fun σ => op.value?_opcode _ _⟩
    rw [hstate, Generator.stack_operated, htook.stack, htook.memory]
    rfl

/-- **A relation** yields one if it holds, and else zero. -/
theorem Relation.yields (r : Relation) (hplain : r.isPlain = true) (h : Span w i j r.marks)
    (hb : Agrees b (tr.state i)) : ∃ o, (tr.state j).stack = o :: (tr.state i).stack ∧
      Yields tr p b i j o fun σ => if r.holds b σ then 1 else 0 := by
  obtain ⟨hleft, hright⟩ := Bool.and_eq_true_iff.1 hplain
  simp only [Relation.marks, span_cons, span_append, span_nil] at h
  obtain ⟨n, h₁, hread, hmarker, m, h₂, hact, rfl⟩ := h
  have hmark := tr.of_ends hmarker r.ends_marker
  have hb₁ := tr.agrees_aside hmarker r.isAside_marker
    (tr.agrees_read hread (r.left.agrees hr.toClean hleft h₁ hb))
  obtain ⟨o₁, hstack₁, hyields₁⟩ := r.left.yields hr hleft h₁ hb
  obtain ⟨o₂, hstack₂, hyields₂⟩ := r.right.yields hr hright h₂ hb₁
  rw [hmark, Generator.stack_push, tr.stack_read hread, hstack₁] at hstack₂
  obtain ⟨g, htook, hstate⟩ := tr.of_ends hact (ends_relate_eq hstack₂)
  have hmemory : (tr.state (n + 1 + 1)).memory = (tr.state n).memory := by
    rw [hmark]
    exact tr.memory_read hread
  have hi := h₁.eq_add
  have hn := h₂.eq_add
  refine ⟨_, ?_, (hyields₁.congr rfl hmemory).operate hr hyields₂ (by omega)
    (by omega) hb hact htook.memory hstate fun σ => r.value?_relation b σ⟩
  rw [hstate, Generator.stack_operated, htook.stack, htook.memory]
  rfl

end Runnable

end Yields

end OnePass.Syntax
