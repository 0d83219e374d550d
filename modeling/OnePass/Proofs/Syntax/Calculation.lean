import OnePass.Proofs.Emission.Ranks
import OnePass.Proofs.Syntax.Enclosed
import OnePass.Proofs.Syntax.Occurrences

/-!
# The code of a value without calls computes it

Wherever a value stands, its code runs to its end, prints nothing and leaves the value in the
operand that is pushed. An element is only read where its operand is used, so the operand keeps
its value as long as no variable and no earlier temporary is written, and none is.

* `Expr.valueIn`: the value in given cells. `Expr.ReadsBelow`: where its elements lie.
* `Trace.Resolved`: a text whose names stand for something, and a program with its code.
* `Trace.Resolved.heaped`: temporaries lie upon one another as operands do, all along a text.
* `Calculates`: the operand of a value. `Expr.calculates`: **every value without calls has one.**
* `calculation_of_parse`: the values of an accepted text.
-/

namespace OnePass.Syntax

open Names Target

/-- The word in the cell that a name stands for. -/
def Frame.wordIn (frames : List Frame) (cells : Cells) (x : String) : Int :=
  (nearest? frames x).elim 0 fun a => cells a

namespace Expr

/-- Whether a value is computed without calls. -/
def isCallFree : Expr → Bool
  | number _ | name _ => true
  | element _ index => index.isCallFree
  | call .. => false
  | power base exponent => base.isCallFree && exponent.isCallFree
  | combine _ left right => left.isCallFree && right.isCallFree

/-- All names in a value stand for something. -/
def Stands (frames : List Frame) : Expr → Prop
  | number _ | call .. => True
  | name x => (Frame.nearest? frames x).isSome
  | element x index => (Frame.nearest? frames x).isSome ∧ index.Stands frames
  | power base exponent => base.Stands frames ∧ exponent.Stands frames
  | combine _ left right => left.Stands frames ∧ right.Stands frames

section Values

variable (limit unit : Nat) (frames : List Frame) (cells : Cells)

/-- **The value of an expression without calls,** in exact integers. The items of a list lie one unit
apart, and a negative exponent counts as zero. -/
def valueIn : Expr → Int
  | number digits => Decimal.value digits.toList
  | name x => Frame.wordIn frames cells x
  | element x index => cells (Frame.wordIn frames cells x + index.valueIn * unit)
  | call .. => 0
  | power base exponent => base.valueIn ^ exponent.valueIn.toNat
  | combine op left right => op.apply left.valueIn right.valueIn

/-- **All elements that a value reads** lie below an address. -/
def ReadsBelow : Expr → Prop
  | number _ | name _ | call .. => True
  | element x index => index.ReadsBelow ∧
    Frame.wordIn frames cells x + index.valueIn unit frames cells * unit < limit
  | power base exponent => base.ReadsBelow ∧ exponent.ReadsBelow
  | combine _ left right => left.ReadsBelow ∧ right.ReadsBelow

end Values

section Stable

variable {limit unit : Nat} {frames : List Frame} {cells cells' : Cells}
  (hcells : ∀ a : Int, a < limit → cells' a = cells a)
  (hnames : ∀ x a, Frame.nearest? frames x = some a → a < limit)
include hcells hnames

theorem wordIn_eq (x : String) : Frame.wordIn frames cells' x = Frame.wordIn frames cells x := by
  unfold Frame.wordIn
  cases hx : Frame.nearest? frames x with
  | none => rfl
  | some a => exact hcells a (Int.ofNat_lt.2 (hnames x a hx))

/-- **A value stays,** as long as the cells below are as they were. -/
theorem valueIn_eq : ∀ e : Expr, e.ReadsBelow limit unit frames cells →
    e.valueIn unit frames cells' = e.valueIn unit frames cells
  | number _, _ | call .., _ => rfl
  | name x, _ => wordIn_eq hcells hnames x
  | element x index, ⟨hindex, hlt⟩ => by
    rw [valueIn, valueIn, wordIn_eq hcells hnames, valueIn_eq index hindex, hcells _ hlt]
  | power base exponent, ⟨hbase, hexponent⟩ => by
    rw [valueIn, valueIn, valueIn_eq base hbase, valueIn_eq exponent hexponent]
  | combine op left right, ⟨hleft, hright⟩ => by
    rw [valueIn, valueIn, valueIn_eq left hleft, valueIn_eq right hright]

theorem ReadsBelow.stays : ∀ {e : Expr}, e.ReadsBelow limit unit frames cells →
    e.ReadsBelow limit unit frames cells'
  | number _, _ | name _, _ | call .., _ => trivial
  | element x index, ⟨hindex, hlt⟩ => by
    refine ⟨hindex.stays, ?_⟩
    rwa [wordIn_eq hcells hnames, valueIn_eq hcells hnames index hindex]
  | power _ _, ⟨hbase, hexponent⟩ => ⟨hbase.stays, hexponent.stays⟩
  | combine _ _ _, ⟨hleft, hright⟩ => ⟨hleft.stays, hright.stays⟩

end Stable

end Expr

end OnePass.Syntax

namespace OnePass.Derivation

open Emission Names Syntax Target
open Grammar (Action Mark Terminal)

variable {c : Config} {source : String} {w : List Mark} {i j : Nat} {x : String}
  {tr : Trace (.reserving c.keywords) w} {p : Program}

/-- **A text whose names all stand for something,** whatever else is wrong with it, and a program that
holds its code. -/
structure Trace.Meaningful (tr : Trace (.reserving c.keywords) w) (source : String) (p : Program) : Prop
    extends tr.Tells source where
  valid : c.validate = .ok ()
  defined : ∀ e ∈ (tr.state w.length).errors.toList, ∀ x, e.fault ≠ .undefined x
  program : ∀ slot i, Holds (tr.state w.length).memory.program slot i → Holds p slot i

/-- **Such a text whose numbers and addresses are words.** -/
structure Trace.Resolved (tr : Trace (.reserving c.keywords) w) (source : String) (p : Program) : Prop
    extends tr.Meaningful source p where
  capacity : c.capacity ≤ 2 ^ 63
  numbers : ∀ {i : Nat} {x : String}, w[i]? = some (.read .number x) →
    Decimal.signed64? x.toList = some (Decimal.value x.toList : Int)

namespace Trace.Meaningful

variable (hr : tr.Meaningful source p)
include hr

theorem unit_pos : 0 < c.unit := (c.validate_eq_ok_iff.1 hr.valid).1

theorem settled_at (hi : i ≤ w.length) : Settled c (tr.state i) := hr.settled hr.valid hi

/-- Code stays in the program. -/
theorem holds {m : Mark} {slot : Nat} {instruction : Instruction} (hm : w[i]? = some m)
    (h : Holds (tr.state (i + 1)).memory.program slot instruction) : Holds p slot instruction :=
  hr.program _ _ ((tr.extends_le (List.getElem?_eq_some_iff.1 hm).1 (Nat.le_refl _)).kept _ _ h)

/-- The slots of the program lie below all temporaries. -/
theorem slots_le (hi : i ≤ w.length) : tr.slots i ≤ c.tempsFrom := by
  obtain ⟨_, _, _, hkept⟩ := (hr.settled_at hi).kept
  exact Nat.le_trans hkept.owned.memory.size (Nat.le_add_right _ _)

/-- Names stand for cells below the temporaries. -/
theorem lt_of_nearest? {cell : Nat} (hi : i ≤ w.length)
    (hx : Frame.nearest? (tr.frames i) x = some cell) : cell < c.tempsFrom := by
  rw [← (hr.depicted i hi).depicts.readCell?] at hx
  obtain ⟨row, -, hsees⟩ := SymbolTable.exists_sees_of_resolve hx
  exact (hr.settled_at hi).lt_of_sees hsees

/-- **A name that is read** stands for something, and its cell is pushed. -/
theorem name (h : Span w i j (Expr.name x).marks) : ∃ cell,
    Frame.nearest? (tr.frames i) x = some cell ∧ tr.frames j = tr.frames i ∧
      (tr.state j).stack = .direct cell :: (tr.state i).stack ∧
        (tr.state j).memory = (tr.state i).memory := by
  have huse : Span w i j (Use.value.marks x) := h
  obtain ⟨hframes, hdone⟩ := hr.use huse
  obtain ⟨hread, hcheck, hpush, rfl⟩ := h
  have hlt := (List.getElem?_eq_some_iff.1 hpush).1
  have hstands : Frame.nearest? (tr.frames i) x ≠ none := by
    intro hnone
    have herrors := hdone.errors
    obtain ⟨new, hnew, -⟩ := tr.noted hlt
    rw [herrors] at hnew
    refine hr.defined ⟨tr.line (i + 1), .undefined x⟩ ?_ x rfl
    rw [hnew]
    simp [Use.resolve, hnone]
  obtain ⟨cell, hcell⟩ := Option.ne_none_iff_exists'.1 hstands
  refine ⟨cell, hcell, ?_, ?_, ?_⟩
  · rw [hframes]
    simp [Use.resolve, Resolution.orNew, hcell]
  · have hstack := hdone.stack
    simpa [Use.resolve, Resolution.orNew, hcell] using hstack
  · obtain ⟨hchecked, -⟩ := tr.of_ends hcheck (hr.toTells.name hread).requireCell
    have hx : tr.lexeme (i + 1 + 1) = x := (tr.acts hcheck).2.trans (tr.lexeme_read hread)
    have hfound : (tr.state (i + 1 + 1)).readCell? (tr.lexeme (i + 1 + 1)) = some cell := by
      rw [(hr.depicted _ (Nat.le_of_lt hlt)).depicts.readCell?, tr.frames_act hcheck,
        tr.frames_read hread, hx]
      exact hcell
    have hpushed : (tr.state (i + 1 + 1 + 1)).memory = (tr.state (i + 1 + 1)).memory := by
      refine tr.of_ends (Q := fun _ g' => g'.memory = (tr.state (i + 1 + 1)).memory) hpush ?_
      simp only [perform, readName, ends_bind, ends_get, hfound, ends_pure, ends_push]
      rfl
    rw [hpushed, hchecked]
    exact tr.memory_read hread

end Trace.Meaningful

namespace Trace.Resolved

variable (hr : tr.Resolved source p)
include hr

theorem temps (hi : i ≤ w.length) : c.tempsFrom ≤ tr.temps i ∧ tr.temps i ≤ 2 ^ 63 := by
  obtain ⟨hfrom, hle, -⟩ := (hr.settled_at hi).temps
  exact ⟨hfrom, Nat.le_trans hle hr.capacity⟩

theorem tempsFrom_le : c.tempsFrom ≤ 2 ^ 63 :=
  Nat.le_trans (c.validate_eq_ok_iff.1 hr.valid).2 hr.capacity

/-- **All along the text,** the temporaries on the stack lie upon one another. -/
theorem heaped (hi : i ≤ w.length) : Heaped c (tr.state i) := by
  induction i with
  | zero =>
    have hstart : Heaped c (.ofConfig c) := ⟨c.tempsFrom, Nat.le_refl _, rfl, rfl, rfl, .nil,
      Nat.le_refl _⟩
    obtain ⟨limit, hfirst, hunder⟩ := hstart
    rw [hr.start]
    rcases generator_begun c source with heq | ⟨-, heq⟩
    · rw [heq]
      exact ⟨limit, hfirst, hunder⟩
    · rw [heq]
      exact ⟨limit, hfirst, hunder.aside (List.Sublist.refl _) rfl⟩
  | succ i ih =>
    have hsettled := hr.settled_at (Nat.le_of_succ_le hi)
    obtain ⟨limit, hfirst, hunder⟩ := ih (Nat.le_of_succ_le hi)
    rcases hk : w[i] with ⟨t, x⟩ | a
    · have hread := List.getElem?_eq_some_iff.2 ⟨hi, hk⟩
      exact ⟨limit, hfirst, hunder.aside (tr.stack_read hread ▸ List.Sublist.refl _)
        (tr.memory_read hread)⟩
    · have hact := List.getElem?_eq_some_iff.2 ⟨hi, hk⟩
      have hfound : ∀ x cell, (tr.state i).readCell? x = some cell ∨
          (tr.state i).ownCell? x = some cell → cell < c.tempsFrom := by
        rintro x cell (hx | hx)
        · obtain ⟨row, -, hsees⟩ := SymbolTable.exists_sees_of_resolve hx
          exact hsettled.lt_of_sees hsees
        · obtain ⟨row, -, hsees⟩ := SymbolTable.exists_sees_of_sameBody hx
          exact hsettled.lt_of_sees hsees
      have hnew : ∀ cell m, (tr.state i).memory.takeCell = .ok (cell, m) → cell < c.tempsFrom := by
        intro cell m hm
        obtain ⟨_, _, _, hkept⟩ := hsettled.kept
        obtain ⟨⟨hcell, -⟩, hregular, -⟩ := Memory.takeCell_spec hkept.owned.memory hr.unit_pos hm
        exact Nat.lt_of_lt_of_le hcell hregular.data_le
      have hperform : Heaped c (tr.state i) := ⟨limit, hfirst, hunder⟩
      exact tr.of_ends hact (hperform.perform hr.unit_pos hr.capacity hr.tempsFrom_le hfound hnew
        (tr.lexeme i)).ends

end Trace.Resolved

/-- **The code of an element's address** is two instructions, and takes a temporary for each. -/
theorem Trace.located {m : Nat} {g : Generator} {base index o : Operand}
    (hs : Settled c (tr.state m)) (hg : g.memory = (tr.state m).memory)
    (hstate : tr.state (m + 1) = (g.located base index).push o) :
    tr.temps (m + 1) = tr.temps m + c.unit + c.unit ∧ tr.slots (m + 1) = tr.slots m + 2 ∧
      Holds (tr.state (m + 1)).memory.program (tr.slots m)
        (.binary .mult index (.immediate (Operand.word c.unit)) (.direct (tr.temps m))) ∧
      Holds (tr.state (m + 1)).memory.program (tr.slots m + 1)
        (.binary .add base (.direct (tr.temps m)) (.direct (tr.temps m + c.unit))) := by
  have hunit := hs.temps.2.2.1
  have htemp : tr.temps (m + 1) = tr.temps m + c.unit + c.unit := by
    rw [Trace.temps, hstate]
    change g.memory.tempNext + g.memory.unit + g.memory.unit = _
    rw [hg, hunit]
    rfl
  have hprogram : (tr.state (m + 1)).memory.program = ((tr.state m).memory.program.push
      (some (.binary .mult index (.immediate (Operand.word c.unit)) (.direct (tr.temps m))))).push
        (some (.binary .add base (.direct (tr.temps m)) (.direct (tr.temps m + c.unit)))) := by
    rw [hstate, Trace.temps, ← hunit, ← hg]
    rfl
  have hslots : tr.slots (m + 1) = tr.slots m + 2 := by
    rw [tr.slots_eq, hprogram, Array.size_push, Array.size_push, ← tr.slots_eq]
  refine ⟨htemp, hslots, ?_, ?_⟩
  · rw [hprogram]
    exact (holds_push _ _).push _
  · rw [hprogram, tr.slots_eq, ← Array.size_push]
    exact holds_push _ _

/-- **An access leaves the address of its element** in a temporary. Its base keeps its value as long
as no temporary from before is written. -/
theorem Trace.Resolved.addressed (hr : tr.Resolved source p) {m : Nat} (asValue : Bool)
    {base index : Operand} {st : OperandStack}
    (hact : w[m]? = some (.act (if asValue then .elementValue else .elementAddress)))
    (hstack : (tr.state m).stack = index :: base :: st) :
    (tr.state (m + 1)).stack = (if asValue then .indirect (tr.temps m + c.unit)
        else .direct (tr.temps m + c.unit)) :: st ∧
      tr.temps m + c.unit < tr.temps (m + 1) ∧
      ∀ s : State, s.slot = tr.slots m → base.Steady (tr.temps m) s.cells →
        ∃ s', Silent p (tr.temps m) s s' ∧ s'.slot = tr.slots (m + 1) ∧
          s'.cells ↑(tr.temps m + c.unit) = base.read s.cells + index.read s.cells * c.unit := by
  have hlt : m + 1 ≤ w.length := (List.getElem?_eq_some_iff.1 hact).1
  have hpos := hr.unit_pos
  have hnext := (hr.temps hlt).2
  have hs := hr.settled_at (Nat.le_of_lt hlt)
  have hends : Ends (perform (if asValue then .elementValue else .elementAddress) (tr.lexeme m)
      (tr.line m)) (tr.state m) fun _ g' => ∃ g₁, Took (tr.line m) [index, base] (tr.state m) st g₁ ∧
        g' = (g₁.located base index).push
          (if asValue then .indirect (g₁.memory.tempNext + g₁.memory.unit)
            else .direct (g₁.memory.tempNext + g₁.memory.unit)) := by
    cases asValue
    · exact ends_element_eq hstack
    · exact ends_element_eq hstack
  obtain ⟨g, htook, hstate⟩ := tr.of_ends hact hends
  obtain ⟨htemp, hslots, hmult, hadd⟩ := Trace.located hs htook.memory hstate
  have hholds := hr.holds hact hmult
  have hholds' := hr.holds hact hadd
  have hlast : tr.temps m + c.unit < tr.temps (m + 1) := by omega
  have hword : tr.temps m + c.unit < 2 ^ 63 := Nat.lt_of_lt_of_le hlast hnext
  have hunit : Operand.word c.unit = c.unit := Operand.word_eq_self (by
    unfold Operand.maxWord
    omega)
  refine ⟨?_, hlast, fun s hslot hsteady => ?_⟩
  · rw [hstate, Generator.stack_push, Generator.stack_located, htook.stack, htook.memory,
      hs.temps.2.2.1]
    rfl
  · obtain ⟨s', hsilent, hslot', haddress⟩ :=
      silent_address hholds hholds' (Nat.lt_add_of_pos_right hpos) hword hsteady hslot
    exact ⟨s', hsilent, hslot'.trans hslots.symm, hunit ▸ haddress⟩

end OnePass.Derivation

namespace OnePass.Syntax

open OnePass.Derivation Emission Names Target
open Grammar (Action Mark Terminal)

variable {c : Config} {source : String} {w : List Mark} {i i' j n m : Nat} {x : String}
  {tr : Trace (.reserving c.keywords) w} {p : Program} {e e₁ e₂ : Expr} {o o₁ o₂ : Operand}

/-- **The operand of a value** that stands between two marks. Its code prints nothing, writes no
variable and no temporary from before, and comes to its end with the value in the operand, which
keeps it as long as nothing below is written. -/
structure Calculates (tr : Trace (.reserving c.keywords) w) (p : Program) (e : Expr) (i j : Nat)
    (o : Operand) : Prop where
  stack : (tr.state j).stack = o :: (tr.state i).stack
  frames : tr.frames j = tr.frames i
  stands : e.Stands (tr.frames i)
  temps : tr.temps i ≤ tr.temps j
  runs : ∀ s : State, s.slot = tr.slots i →
    e.ReadsBelow c.tempsFrom c.unit (tr.frames i) s.cells → ∃ s', Silent p (tr.temps i) s s' ∧
      s'.slot = tr.slots j ∧ o.Steady (tr.temps j) s'.cells ∧
        o.read s'.cells = e.valueIn c.unit (tr.frames i) s.cells

/-- A token may stand before the value. -/
theorem Calculates.read {t : Terminal} (h : Calculates tr p e (i + 1) j o)
    (hread : w[i]? = some (.read t x)) : Calculates tr p e i j o := by
  have htemps : tr.temps (i + 1) = tr.temps i := congrArg Memory.tempNext (tr.memory_read hread)
  have hslots := tr.slots_read hread
  have hframes := tr.frames_read hread
  refine ⟨(tr.stack_read hread) ▸ h.stack, h.frames.trans hframes, hframes ▸ h.stands,
    htemps ▸ h.temps, ?_⟩
  rw [← htemps, ← hslots, ← hframes]
  exact h.runs

/-- And one may stand behind it. -/
theorem Calculates.past {t : Terminal} (h : Calculates tr p e i j o)
    (hread : w[j]? = some (.read t x)) : Calculates tr p e i (j + 1) o := by
  have htemps : tr.temps (j + 1) = tr.temps j := congrArg Memory.tempNext (tr.memory_read hread)
  refine ⟨(tr.stack_read hread).trans h.stack, (tr.frames_read hread).trans h.frames, h.stands,
    htemps ▸ h.temps, ?_⟩
  rw [htemps, tr.slots_read hread]
  exact h.runs

/-- What needs no code has its value already. -/
theorem calculates_of_memory_eq (hstack : (tr.state j).stack = o :: (tr.state i).stack)
    (hframes : tr.frames j = tr.frames i) (hmemory : (tr.state j).memory = (tr.state i).memory)
    (hstands : e.Stands (tr.frames i)) (ho : ∀ cells, o.Steady (tr.temps i) cells)
    (hv : ∀ cells, o.read cells = e.valueIn c.unit (tr.frames i) cells) :
    Calculates tr p e i j o := by
  have htemps : tr.temps j = tr.temps i := congrArg Memory.tempNext hmemory
  have hslots : tr.slots j = tr.slots i := congrArg Memory.programNext hmemory
  refine ⟨hstack, hframes, hstands, Nat.le_of_eq htemps.symm, fun s hs _ => ?_⟩
  exact ⟨s, .refl p _ s, hs.trans hslots.symm, htemps ▸ ho _, hv _⟩

section Resolved

variable (hr : tr.Resolved source p)
include hr

/-- **Two values, one behind the other.** The first keeps its value while the second is computed. -/
theorem Calculates.both (h₁ : Calculates tr p e₁ i n o₁) (h₂ : Calculates tr p e₂ n m o₂)
    (hi : i ≤ w.length) {s : State} (hs : s.slot = tr.slots i)
    (hreads₁ : e₁.ReadsBelow c.tempsFrom c.unit (tr.frames i) s.cells)
    (hreads₂ : e₂.ReadsBelow c.tempsFrom c.unit (tr.frames i) s.cells) :
    ∃ s', Silent p (tr.temps i) s s' ∧ s'.slot = tr.slots m ∧
      (o₁.Steady (tr.temps m) s'.cells ∧ o₂.Steady (tr.temps m) s'.cells) ∧
        o₁.read s'.cells = e₁.valueIn c.unit (tr.frames i) s.cells ∧
          o₂.read s'.cells = e₂.valueIn c.unit (tr.frames i) s.cells := by
  obtain ⟨s₁, hsilent₁, hslot₁, hsteady₁, hv₁⟩ := h₁.runs s hs hreads₁
  have hcells := (hsilent₁.mono (hr.temps hi).1).stays
  have hnames : ∀ x a, Frame.nearest? (tr.frames i) x = some a → a < c.tempsFrom :=
    fun x a hx => hr.lt_of_nearest? hi hx
  obtain ⟨s₂, hsilent₂, hslot₂, hsteady₂, hv₂⟩ := h₂.runs s₁ hslot₁
    (h₁.frames ▸ hreads₂.stays hcells hnames)
  refine ⟨s₂, hsilent₁.trans (hsilent₂.mono h₁.temps), hslot₂,
    ⟨(hsteady₁.silent hsilent₂).mono h₂.temps, hsteady₂⟩, ?_, ?_⟩
  · rw [hsteady₁ _ hsilent₂.stays, hv₁]
  · rw [hv₂, h₁.frames, Expr.valueIn_eq hcells hnames e₂ hreads₂]

/-- **A result in the temporary** that was next keeps its value. -/
theorem steady_temp (hj : j ≤ w.length) {cell : Nat} (hlt : cell < tr.temps j) (cells : Cells) :
    (Operand.direct cell).Steady (tr.temps j) cells :=
  Operand.Below.steady (.inr ⟨cell, hlt, rfl⟩) (hr.temps hj).2 cells

/-- **An operation** on two values. -/
theorem Calculates.operate {op : Operator} (h₁ : Calculates tr p e₁ i n o₁)
    (h₂ : Calculates tr p e₂ n m o₂) (hi : i ≤ w.length) (hact : w[m]? = some (.act op.action)) :
    ∃ o, Calculates tr p (.combine op e₁ e₂) i (m + 1) o := by
  have hlt : m + 1 ≤ w.length := (List.getElem?_eq_some_iff.1 hact).1
  have hpos := hr.unit_pos
  have hnext := (hr.temps hlt).2
  have hle := Nat.le_trans h₁.temps h₂.temps
  obtain ⟨g, htook, hstate⟩ := tr.of_ends hact (op.ends_perform (by rw [h₂.stack, h₁.stack]))
  obtain ⟨htemp, hslots, hcode⟩ :=
    Trace.operated (hr.settled_at (Nat.le_of_lt hlt)) htook.memory hstate
  have hholds := hr.holds hact hcode
  have hword : tr.temps m < 2 ^ 63 := by omega
  refine ⟨.direct (tr.temps m), ?_, ?_, ⟨h₁.stands, h₁.frames ▸ h₂.stands⟩, by omega,
    fun s hs hreads => ?_⟩
  · rw [hstate, Generator.stack_operated, htook.stack, htook.memory]
    rfl
  · rw [tr.frames_act hact, ← h₁.frames, ← h₂.frames]
    cases op <;> rfl
  · obtain ⟨s₂, hsilent, hslot, -, hv₁, hv₂⟩ := h₁.both hr h₂ hi hs hreads.1 hreads.2
    have hstep := (hslot ▸ hholds : Holds p s₂.slot _).binary hword (op.value?_opcode _ _)
    refine ⟨_, hsilent.trans (.write hstep hle), (congrArg (· + 1) hslot).trans hslots.symm,
      steady_temp hr hlt (by omega) _, ?_⟩
    rw [Operand.read_direct hword, State.cells_write, if_pos rfl, hv₁, hv₂]
    rfl

/-- **A power.** Its base and its exponent are read in every turn of the loop. -/
theorem Calculates.power (h₁ : Calculates tr p e₁ i n o₁) (h₂ : Calculates tr p e₂ n m o₂)
    (hi : i ≤ w.length) (hact : w[m]? = some (.act .power)) :
    ∃ o, Calculates tr p (.power e₁ e₂) i (m + 1) o := by
  have hlt : m + 1 ≤ w.length := (List.getElem?_eq_some_iff.1 hact).1
  have hpos := hr.unit_pos
  have hsmall := hr.capacity
  have hfrom := (hr.temps (Nat.le_of_lt hlt)).1
  have hle := Nat.le_trans h₁.temps h₂.temps
  obtain ⟨g, htook, hstate⟩ := tr.of_ends hact (ends_raise_eq (by rw [h₂.stack, h₁.stack]))
  obtain ⟨hroom, htemp, hslots, hcode⟩ :=
    Trace.powered (hr.settled_at (Nat.le_of_lt hlt)) htook.memory hact hstate
  have hloop : PowerLoop p o₁ o₂ (tr.temps m) (tr.temps m + c.unit) (tr.temps m + c.unit + c.unit)
      (tr.slots m) :=
    { holds := fun k i hk => hr.holds hact (hcode k i hk)
      order := ⟨by omega, by omega⟩
      cells := by omega
      slots := by
        have hend := hr.slots_le hlt
        omega }
  have hword : tr.temps m < 2 ^ 63 := by omega
  refine ⟨.direct (tr.temps m), ?_, ?_, ⟨h₁.stands, h₁.frames ▸ h₂.stands⟩, by omega,
    fun s hs hreads => ?_⟩
  · rw [hstate, Generator.stack_withPower, htook.stack, htook.memory]
    rfl
  · rw [tr.frames_act hact, ← h₁.frames, ← h₂.frames]
    rfl
  · obtain ⟨s₂, hsilent, hslot, hsteady, hv₁, hv₂⟩ := h₁.both hr h₂ hi hs hreads.1 hreads.2
    obtain ⟨s₃, hsilent', hslot', hresult⟩ := hloop.runs hsteady.1 hsteady.2 hslot
    refine ⟨s₃, hsilent.trans (hsilent'.mono hle), hslot'.trans hslots.symm,
      steady_temp hr hlt (by omega) _, ?_⟩
    rw [Operand.read_direct hword, hresult, hv₁, hv₂]
    rfl

/-- **An element** is read where its operand is, from the address that its code leaves. -/
theorem Calculates.element (h₁ : Calculates tr p (.name x) i n o₁)
    (h₂ : Calculates tr p e₂ n m o₂) (hi : i ≤ w.length)
    (hact : w[m]? = some (.act .elementValue)) :
    ∃ o, Calculates tr p (.element x e₂) i (m + 1) o := by
  have hlt : m + 1 ≤ w.length := (List.getElem?_eq_some_iff.1 hact).1
  have hfrom₀ := (hr.temps hi).1
  have hle := Nat.le_trans h₁.temps h₂.temps
  have htaken : (tr.state m).stack = o₂ :: o₁ :: (tr.state i).stack := by rw [h₂.stack, h₁.stack]
  obtain ⟨hstack, hlast, hruns⟩ := hr.addressed true hact htaken
  have hlater : tr.temps i ≤ tr.temps (m + 1) := by omega
  have hword : tr.temps m + c.unit < 2 ^ 63 := Nat.lt_of_lt_of_le hlast (hr.temps hlt).2
  refine ⟨.indirect (tr.temps m + c.unit), hstack, ?_, ⟨h₁.stands, h₁.frames ▸ h₂.stands⟩, hlater,
    fun s hs ⟨hindex, hbelow⟩ => ?_⟩
  · rw [tr.frames_act hact, ← h₁.frames, ← h₂.frames]
    rfl
  · obtain ⟨s₂, hsilent, hslot, hsteady, hv₁, hv₂⟩ := h₁.both hr h₂ hi hs trivial hindex
    obtain ⟨s₃, hsilent', hslot', haddress⟩ := hruns s₂ hslot hsteady.1
    rw [hv₁, hv₂] at haddress
    have hsame := hsilent.trans (hsilent'.mono hle)
    refine ⟨s₃, hsame, hslot', Operand.steady_indirect hlast hword ?_, ?_⟩
    · rw [haddress]
      exact Int.lt_of_lt_of_le hbelow (Int.ofNat_le.2 (Nat.le_trans hfrom₀ hlater))
    · rw [Operand.read_indirect hword, haddress]
      exact (hsame.mono hfrom₀).stays _ hbelow

theorem calculates_name (h : Span w i j (Expr.name x).marks) :
    ∃ o, Calculates tr p (.name x) i j o := by
  have hi := Nat.le_of_lt (List.getElem?_eq_some_iff.1 h.1).1
  obtain ⟨cell, hcell, hframes, hstack, hmemory⟩ := hr.name h
  obtain ⟨hfrom, hsmall⟩ := hr.temps hi
  have hlow := Nat.lt_of_lt_of_le (hr.lt_of_nearest? hi hcell) hfrom
  refine ⟨_, calculates_of_memory_eq hstack hframes hmemory (Option.isSome_of_eq_some hcell)
    (steady_temp hr hi hlow) fun cells => ?_⟩
  rw [Operand.read_direct (Nat.lt_of_lt_of_le hlow hsmall), Expr.valueIn, Frame.wordIn, hcell]
  rfl

/-- **Every value without calls is computed,** wherever it stands. -/
theorem Expr.calculates : ∀ (e : Expr) {i j : Nat}, e.isCallFree = true → Span w i j e.marks →
    ∃ o, Calculates tr p e i j o
  | .number digits, i, j, _, h => by
    simp only [Expr.marks, span_cons, span_nil] at h
    obtain ⟨hread, hact, rfl⟩ := h
    have hpush := tr.of_ends hact (ends_push (Q := fun _ g => g = _).2 rfl)
    rw [tr.lexeme_read hread, hr.numbers hread, Option.getD_some] at hpush
    refine ⟨.immediate (Decimal.value digits.toList), calculates_of_memory_eq ?_ ?_ ?_ trivial
      (fun _ _ _ => rfl) fun _ => rfl⟩
    · rw [hpush, Generator.stack_push, tr.stack_read hread]
    · rw [tr.frames_act hact, tr.frames_read hread]
      rfl
    · rw [hpush]
      exact tr.memory_read hread
  | .name x, i, j, _, h => calculates_name hr h
  | .element x index, i, j, hfree, h => by
    simp only [Expr.marks, span_cons, span_append, span_nil] at h
    obtain ⟨hread, hcheck, hpush, hopen, n, hindex, hclose, hact, rfl⟩ := h
    have hi := Nat.le_of_lt (List.getElem?_eq_some_iff.1 hread).1
    obtain ⟨o₁, h₁⟩ := calculates_name hr (show Span w i _ (Expr.name x).marks from
      ⟨hread, hcheck, hpush, rfl⟩)
    obtain ⟨o₂, h₂⟩ := index.calculates hfree hindex
    exact h₁.element hr ((h₂.read hopen).past hclose) hi hact
  | .power base exponent, i, j, hfree, h => by
    obtain ⟨hbase, hexponent⟩ := Bool.and_eq_true_iff.1 hfree
    simp only [Expr.marks, span_cons, span_append, span_nil] at h
    obtain ⟨n, h₁, hread, m, h₂, hact, rfl⟩ := h
    have hi := h₁.eq_add
    have hn := (List.getElem?_eq_some_iff.1 hread).1
    obtain ⟨o₁, h₁⟩ := base.calculates hbase h₁
    obtain ⟨o₂, h₂⟩ := exponent.calculates hexponent h₂
    exact h₁.power hr (h₂.read hread) (by omega) hact
  | .combine op left right, i, j, hfree, h => by
    obtain ⟨hleft, hright⟩ := Bool.and_eq_true_iff.1 hfree
    simp only [Expr.marks, span_cons, span_append, span_nil] at h
    obtain ⟨n, h₁, hread, m, h₂, hact, rfl⟩ := h
    have hi := h₁.eq_add
    have hn := (List.getElem?_eq_some_iff.1 hread).1
    obtain ⟨o₁, h₁⟩ := left.calculates hleft h₁
    obtain ⟨o₂, h₂⟩ := right.calculates hright h₂
    exact h₁.operate hr (h₂.read hread) (by omega) hact

/-- Operands that lay on the stack before a value keep their cells. -/
theorem Calculates.keeps (hi : i ≤ w.length) {s s' : State} (h : Silent p (tr.temps i) s s') :
    ∀ o ∈ (tr.state i).stack, o.mode ≠ .immediate → s'.cells o.value = s.cells o.value := by
  obtain ⟨limit, hfirst, hunder⟩ := hr.heaped hi
  intro o ho hmode
  have hlt := hunder.ranked.lt hr.unit_pos hfirst o ho hmode
  exact h.stays _ (Int.lt_of_lt_of_le hlt (Int.ofNat_le.2 hunder.used))

end Resolved

end OnePass.Syntax

namespace OnePass

open OnePass.Derivation Emission Names Syntax Target
open Grammar (Mark)

/-- **The code of every value without calls computes it.** A text without syntax errors is a block.
If all its names stand for something, then wherever a value without calls stands in it, one operand
is pushed, and in a program that holds the code of the text, from any memory in which the elements
of the value lie below the temporaries, the code of the value comes to its end. Then the operand has
the value, and neither a variable nor what an operand from before names has changed. -/
theorem calculation_of_parse {c : Config} {source : String} {outcome : Outcome}
    (hc : c.validate = .ok ()) (hcapacity : c.capacity ≤ 2 ^ 63)
    (h : parse c source = .ok outcome) (he : outcome.syntaxErrors = [])
    (hdefined : ∀ e ∈ outcome.generator.errors.toList, ∀ x, e.fault ≠ .undefined x) :
    (∃ b : Block, (∀ s ∈ b, s.Graded) ∧ Mark.Spelled (blockMarks b) outcome.scan.tokens) ∧
      ∀ b : Block, (∀ s ∈ b, s.Graded) → Mark.Spelled (blockMarks b) outcome.scan.tokens →
        ∃ tr : Trace (.reserving c.keywords) (blockMarks b),
          tr.Tells source ∧ tr.state (blockMarks b).length = outcome.generator ∧
          ∀ (p : Program), (∀ slot instruction,
              Holds outcome.generator.memory.program slot instruction → Holds p slot instruction) →
            ∀ (e : Expr) (i j : Nat), e.isCallFree = true → Span (blockMarks b) i j e.marks →
              e.Stands (tr.frames i) ∧ ∃ o, (tr.state j).stack = o :: (tr.state i).stack ∧
                ∀ s : State, s.slot = tr.slots i →
                  e.ReadsBelow c.tempsFrom c.unit (tr.frames i) s.cells →
                    ∃ s', Reaches p s s' ∧ s'.slot = tr.slots j ∧ s'.output = s.output ∧
                      o.read s'.cells = e.valueIn c.unit (tr.frames i) s.cells ∧
                      (∀ a : Int, a < c.tempsFrom → s'.cells a = s.cells a) ∧
                      ∀ o' ∈ (tr.state i).stack, o'.mode ≠ .immediate →
                        s'.cells o'.value = s.cells o'.value := by
  obtain ⟨b, -, hgraded, hspelled, -⟩ := trace_of_parse h he
  refine ⟨⟨b, hgraded, hspelled⟩, fun b hb hs => ?_⟩
  obtain ⟨tr, htells, hend⟩ := tells_of_spelled h hb hs
  have hscan : outcome.scan = Lexical.scan c.keywords source := scan_of_parse h
  refine ⟨tr, htells, hend, fun p hp e i j hfree hspan => ?_⟩
  have hr : tr.Resolved source p :=
    { toTells := htells
      defined := hend ▸ hdefined
      valid := hc
      capacity := hcapacity
      numbers := signed64?_of_spelled (hscan ▸ hs)
      program := hend ▸ hp }
  obtain ⟨o, ho⟩ := e.calculates hr hfree hspan
  refine ⟨ho.stands, o, ho.stack, fun s hslot hreads => ?_⟩
  have hi : i ≤ (blockMarks b).length := Nat.le_of_lt (span_bounds hspan e.marks_ne_nil).1
  obtain ⟨s', hsilent, hslot', -, hv⟩ := ho.runs s hslot hreads
  exact ⟨s', hsilent.reaches, hslot', hsilent.output, hv, (hsilent.mono (hr.temps hi).1).stays,
    Calculates.keeps hr hi hsilent⟩

/-- In a function, a power of an element whose index is a variable outside, and a product, which is
grouped before the difference. -/
theorem calculation_of_elements :
    let source := "x = [ 3 , 5 ] ; i = 1 ; def f ( a ) : y = x [ i ] ** a - 2 * x [ 0 ] ; return y ; ; print ( f ( 4 ) ) ;"
    let e : Expr := .combine .sub (.power (.element "x" (.name "i")) (.name "a"))
      (.combine .mult (.number "2") (.element "x" (.number "0")))
    ∃ (outcome : Outcome) (b : Block)
      (tr : Trace (.reserving Config.standard.keywords) (blockMarks b)) (i j : Nat) (o : Operand),
      parse .standard source = .ok outcome ∧ tr.Tells source ∧ Span (blockMarks b) i j e.marks ∧
        (tr.state j).stack = o :: (tr.state i).stack ∧
          ∀ s : State, s.slot = tr.slots i → e.ReadsBelow 500 4 (tr.frames i) s.cells →
            ∃ s', Reaches outcome.generator.memory.program s s' ∧ s'.slot = tr.slots j ∧
              o.read s'.cells = e.valueIn 4 (tr.frames i) s.cells := by
  intro source e
  let text : Block := [.assign "x" (.list (.number "3") [.number "5"]),
    .assign "i" (.value (.number "1")),
    .define "f" ["a"] [.assign "y" (.value e), .returnValue (.name "y")],
    .print (.call "f" [.number "4"])]
  have hrun : (parse .standard source).toOption.map (fun o => (o.syntaxErrors, o.generator.errors,
      decide (Mark.Spelled (blockMarks text) o.scan.tokens))) = some ([], #[], true) := by
    rw [parse_eq, Grammar.table_eq_ok]
    decide +kernel
  have hgraded : ∀ s ∈ text, s.Graded := by decide
  have hspan : Span (blockMarks text) 34 62 e.marks := by
    simp [text, e, blockMarks, Statement.marks, Expr.marks, Assigned.marks, rowMarks, restMarks,
      paramMarks, furtherParamMarks, Span]
  cases ho : parse .standard source with
  | error e =>
    rw [ho] at hrun
    cases hrun
  | ok o =>
    rw [ho] at hrun
    simp only [Except.toOption, Option.map_some, Option.some.injEq, Prod.mk.injEq] at hrun
    obtain ⟨hnone, herrors, hspelled⟩ := hrun
    obtain ⟨-, hall⟩ := calculation_of_parse (by decide) (by decide) ho hnone (by simp [herrors])
    obtain ⟨tr, htells, -, hvalues⟩ := hall text hgraded (of_decide_eq_true hspelled)
    obtain ⟨-, result, hstack, hruns⟩ := hvalues _ (fun _ _ h => h) e 34 62 rfl hspan
    refine ⟨o, text, tr, 34, 62, result, rfl, htells, hspan, hstack, fun s hslot hreads => ?_⟩
    obtain ⟨s', hreaches, hslot', -, hv, -⟩ := hruns s hslot hreads
    exact ⟨s', hreaches, hslot', hv⟩

end OnePass
