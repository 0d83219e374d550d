import OnePass.Proofs.Emission.Voids
import OnePass.Proofs.Syntax.Dispatching
import OnePass.Proofs.Syntax.Execution
import OnePass.Proofs.Syntax.Results

/-!
# Void results in values

A function that is called behind the end of its definition gives no value if no return with a value
belongs to it. A value leaves one operand, which is void if the value is such a call; what is void of
the operands in it has been reported and is void no more.

* `Trace.isVoid`, `Trace.reports`: the calls that give no value, and what should be reported.
* `Trace.Fitted`: a trace of an accepted text with all that is known of its states.
* `Trace.Stacks`: operands that marks leave with what is void of them. `Trace.Stacks.trans`.
* `Trace.Stacks.turn`, `Trace.Fitted.dispatches`: **operands are used,** by operators and by calls.
* `Expr.stacks`, `Assigned.stacks`, `Relation.stacks`: **what a value leaves.**
-/

namespace OnePass.Derivation

open Emission Names Syntax Target
open Grammar (Action Mark Terminal)

variable {c : Config} {source : String} {w : List Mark} {i j m n count count' : Nat}
  {values values' : List Operand} {used used' results : List UsedResult} {o : Operand} {a : Action}
  {t : Terminal} {x : String}

section Reports

variable {E : Setting} (tr : Trace E w)

/-- **A call that gives no value:** it selects a function whose definition has ended, and to which no
return with a value belongs. -/
def Trace.isVoid (u : UsedResult) : Bool :=
  match Stretch.callee? (tr.stretches u.call) u.name u.count with
  | some k => k.ended && !k.givesValue
  | none => false

/-- **What should be reported** of results that are used: each that is void, where it is used. -/
def Trace.reports (used : List UsedResult) : List SemanticError :=
  (used.filter tr.isVoid).map fun u => ⟨tr.line u.user, .voidOperand⟩

@[simp] theorem Trace.reports_nil : tr.reports [] = [] := rfl

@[simp] theorem Trace.reports_append (used used' : List UsedResult) :
    tr.reports (used ++ used') = tr.reports used ++ tr.reports used' := by
  simp [reports]

/-- Results that are used at one place are reported there. -/
theorem Trace.reports_eq_replicate (h : ∀ u ∈ results, u.user = m) :
    tr.reports results = List.replicate (results.countP tr.isVoid) ⟨tr.line m, .voidOperand⟩ := by
  rw [reports, List.countP_eq_length_filter, List.eq_replicate_iff]
  refine ⟨List.length_map _, fun e he => ?_⟩
  obtain ⟨u, hu, rfl⟩ := List.mem_map.1 he
  rw [h u (List.mem_filter.1 hu).1]

/-- Whether the result that a value is, if it is one, is void; it does not matter where it is
used. -/
def Trace.voids (e : Expr) (i : Nat) : Nat := (e.result i 0).countP tr.isVoid

theorem Trace.countP_result (e : Expr) (i user : Nat) :
    (e.result i user).countP tr.isVoid = tr.voids e i := by
  cases e <;> rfl

end Reports

end OnePass.Derivation

namespace OnePass.Syntax

open Emission Names Target

variable {e : Expr} {es : List Expr} {i m : Nat} {c : Config} {x : String}

theorem Expr.user_of_mem_result {u : UsedResult} (h : u ∈ e.result i m) : u.user = m := by
  cases e with
  | call f arguments =>
    obtain rfl := List.mem_singleton.1 h
    rfl
  | _ => cases h

theorem user_of_mem_rowResults {u : UsedResult} (h : u ∈ rowResults es i m) : u.user = m := by
  induction es generalizing i with
  | nil => cases h
  | cons e rest ih =>
    rcases List.mem_append.1 h with h | h
    · exact ih h
    · exact Expr.user_of_mem_result h

/-- A name stands for a cell below the temporaries. -/
theorem Settled.cell_readName {g : Generator} (h : Settled c g) (hu : 0 < c.unit)
    (hsmall : c.capacity ≤ 2 ^ 63) : Ends (readName x) g fun _ g' => ∃ o, g'.stack = o :: g.stack ∧
      ∀ cell, Generator.directCell? o = some cell → cell < c.tempsFrom := by
  obtain ⟨hfrom, hle, -⟩ := h.temps
  have hdirect : ∀ {cell : Nat}, cell < c.tempsFrom → ∀ cell',
      Generator.directCell? (.direct cell) = some cell' → cell' < c.tempsFrom := by
    intro cell hcell cell' heq
    rw [directCell?_direct (by omega), Option.some.injEq] at heq
    exact heq ▸ hcell
  simp only [readName, ends_bind, ends_get]
  cases hread : g.readCell? x with
  | some cell =>
    obtain ⟨row, -, hsees⟩ := SymbolTable.exists_sees_of_resolve hread
    simp only [ends_bind, ends_pure, ends_push]
    exact ⟨_, rfl, hdirect (h.lt_of_sees hsees)⟩
  | none =>
    obtain ⟨_, _, _, hkept⟩ := h.kept
    simp only [bindFresh, ends_bind, ends_modifyGet, ends_onMemory, ends_modify, ends_pure, ends_push]
    intro cell m hm
    obtain ⟨⟨hcell, -⟩, hregular, -⟩ := Memory.takeCell_spec hkept.owned.memory hu hm
    exact ⟨_, rfl, hdirect (Nat.lt_of_lt_of_le hcell hregular.data_le)⟩

end OnePass.Syntax

namespace OnePass.Derivation

open Emission Names Syntax Target
open Grammar (Action Mark Terminal)

variable {c : Config} {source : String} {w : List Mark} {i j m n count count' : Nat}
  {values values' : List Operand} {used used' results : List UsedResult} {o : Operand} {a : Action}
  {t : Terminal} {x : String} {tr : Trace (.reserving c.keywords) w}

/-- **A trace of an accepted text** whose cells have one owner, and whose addresses are words. -/
structure Trace.Fitted (tr : Trace (.reserving c.keywords) w) (source : String) : Prop
    extends tr.Tells source where
  whole : ∀ i, Whole w i
  counted : Grammar.counted w < 2 ^ 63
  settled : ∀ i ≤ w.length, Settled c (tr.state i)
  unit : 0 < c.unit
  capacity : c.capacity ≤ 2 ^ 63

section Stacks

/-- The void results are temporaries that have been taken. -/
def Trace.Low (tr : Trace (.reserving c.keywords) w) (i : Nat) : Prop :=
  ∀ cell ∈ (tr.state i).voidResults, c.tempsFrom ≤ cell ∧ cell < tr.temps i

/-- **Operands that marks leave,** with what is void of them, and what they report. -/
structure Trace.Stacks (tr : Trace (.reserving c.keywords) w) (i j : Nat) (values : List Operand)
    (count : Nat) (used : List UsedResult) : Prop where
  low : tr.Low i
  temps : tr.temps i ≤ tr.temps j
  stack : (tr.state j).stack = values ++ (tr.state i).stack
  piled : Piled values count (tr.state i).voidResults (tr.state j).voidResults
  fresh : tr.Low j
  reported : (tr.state j).voidErrors = (tr.state i).voidErrors ++ tr.reports used

theorem Trace.Stacks.trans (h : tr.Stacks i n values count used)
    (h' : tr.Stacks n j values' count' used') :
    tr.Stacks i j (values' ++ values) (count' + count) (used ++ used') where
  low := h.low
  temps := Nat.le_trans h.temps h'.temps
  stack := by rw [h'.stack, h.stack, List.append_assoc]
  piled := h'.piled.append h.piled
  fresh := h'.fresh
  reported := by rw [h'.reported, h.reported, tr.reports_append, List.append_assoc]

theorem Trace.Low.of_voids_eq_nil (h : (tr.state i).voidResults = []) : tr.Low i := by
  intro cell hc
  rw [h] at hc
  cases hc

/-- The void results behind a state that pays them no heed. -/
theorem Trace.Low.voids (hl : tr.Low i) (h : Heedless (tr.state i) (tr.state j)) :
    (tr.state j).voidResults = (tr.state i).voidResults :=
  h.voids fun cell hc => (hl cell hc).2

theorem Trace.Low.below (hl : tr.Low i) (h : Heedless (tr.state i) (tr.state j)) : tr.Low j := by
  intro cell hc
  rw [hl.voids h] at hc
  exact ⟨(hl cell hc).1, Nat.lt_of_lt_of_le (hl cell hc).2 h.temps⟩

/-- **Operands that are none of the void results** are pushed. -/
theorem Trace.Low.stacks (hl : tr.Low i) (h : Heedless (tr.state i) (tr.state j))
    (hst : (tr.state j).stack = values ++ (tr.state i).stack)
    (hvalues : ∀ o ∈ values, ∀ cell, Generator.directCell? o = some cell →
      cell ∉ (tr.state i).voidResults) : tr.Stacks i j values 0 [] where
  low := hl
  temps := h.temps
  stack := hst
  piled := by
    rw [hl.voids h]
    clear hst
    induction values with
    | nil => exact .nil
    | cons o values ih =>
      obtain ⟨ho, hrest⟩ := List.forall_mem_cons.1 hvalues
      exact .value ho (ih hrest)
  fresh := hl.below h
  reported := by
    rw [h.errors, tr.reports_nil, List.append_nil]

theorem Trace.heedless_read (h : w[i]? = some (.read t x)) :
    Heedless (tr.state i) (tr.state (i + 1)) := by
  rcases (tr.reads h).2 with heq | ⟨token, -, heq⟩
  · rw [heq]
    exact .refl _
  · rw [heq]
    exact .of_eq rfl rfl rfl

theorem Trace.heedless_act (h : w[i]? = some (.act a)) (ha : isMinding a = false) :
    Heedless (tr.state i) (tr.state (i + 1)) :=
  tr.of_ends h (ignores_perform ha _ _ _)

/-- Where nothing is pushed nothing is left. -/
theorem Trace.Low.stays (hl : tr.Low i) (h : Heedless (tr.state i) (tr.state j))
    (hst : (tr.state j).stack = (tr.state i).stack) : tr.Stacks i j [] 0 [] :=
  hl.stacks h hst (List.forall_mem_nil _)

theorem Trace.Stacks.read (h : tr.Stacks i n values count used)
    (hread : w[n]? = some (.read t x)) : tr.Stacks i (n + 1) values count used := by
  have hstep := h.trans (h.fresh.stays (tr.heedless_read hread) (tr.stack_read hread))
  rwa [List.nil_append, Nat.zero_add, List.append_nil] at hstep

theorem Trace.Stacks.act (h : tr.Stacks i n values count used) (hact : w[n]? = some (.act a))
    (ha : isMinding a = false) (hst : (tr.state (n + 1)).stack = (tr.state n).stack) :
    tr.Stacks i (n + 1) values count used := by
  have hstep := h.trans (h.fresh.stays (tr.heedless_act hact ha) hst)
  rwa [List.nil_append, Nat.zero_add, List.append_nil] at hstep

/-- **Operands are used,** and what is void of them is reported there. -/
theorem Trace.Stacks.took (h : tr.Stacks i m values count used) {g : Generator}
    {st : OperandStack} {operands : List Operand}
    (hp : Piled operands count (tr.state i).voidResults (tr.state m).voidResults)
    (htook : Took (tr.line m) operands (tr.state m) st g) (hg : Heedless g (tr.state (m + 1)))
    (hresults : ∀ u ∈ results, u.user = m) (hcount : results.countP tr.isVoid = count) :
    (tr.state (m + 1)).voidResults = (tr.state i).voidResults ∧
      (tr.state (m + 1)).voidErrors =
        (tr.state i).voidErrors ++ tr.reports (used ++ results) ∧
      tr.temps m ≤ tr.temps (m + 1) := by
  obtain ⟨hvoids, herrors, htemps⟩ :=
    htook.heedless hg hp fun cell hc => (h.fresh cell hc).2
  refine ⟨hvoids, ?_, htemps⟩
  rw [herrors, h.reported, tr.reports_append, tr.reports_eq_replicate hresults, hcount,
    List.append_assoc]

/-- The same with operands left behind, none of which is a void result. -/
theorem Trace.Stacks.turn (h : tr.Stacks i m values count used) {g : Generator}
    {st : OperandStack} {operands : List Operand}
    (hp : Piled operands count (tr.state i).voidResults (tr.state m).voidResults)
    (htook : Took (tr.line m) operands (tr.state m) st g) (hg : Heedless g (tr.state (m + 1)))
    (hresults : ∀ u ∈ results, u.user = m) (hcount : results.countP tr.isVoid = count)
    (hst : (tr.state (m + 1)).stack = values' ++ (tr.state i).stack)
    (hvalues : ∀ o ∈ values', ∀ cell, Generator.directCell? o = some cell → tr.temps i ≤ cell) :
    tr.Stacks i (m + 1) values' 0 (used ++ results) := by
  obtain ⟨hvoids, herrors, htemps⟩ := h.took hp htook hg hresults hcount
  refine ⟨h.low, Nat.le_trans h.temps htemps, hst, ?_, ?_, herrors⟩
  · rw [hvoids]
    clear hst
    induction values' with
    | nil => exact .nil
    | cons o values' ih =>
      obtain ⟨ho, hrest⟩ := List.forall_mem_cons.1 hvalues
      -- what is left has been taken since, and lies above all void results
      refine .value (fun cell hcell hc => ?_) (ih hrest)
      exact absurd (ho cell hcell) (Nat.not_le.2 (h.low cell hc).2)
  · intro cell hc
    rw [hvoids] at hc
    exact ⟨(h.low cell hc).1,
      Nat.lt_of_lt_of_le (h.low cell hc).2 (Nat.le_trans h.temps htemps)⟩

/-- **Operands are used, and a result is left.** -/
theorem Trace.Stacks.leaves (h : tr.Stacks i m values count used) {operands : List Operand}
    (hp : Piled operands count (tr.state i).voidResults (tr.state m).voidResults)
    (hl : Leaves (tr.line m) operands (tr.state m) (tr.state i).stack (tr.state (m + 1)))
    (hresults : ∀ u ∈ results, u.user = m) (hcount : results.countP tr.isVoid = count) :
    ∃ o, tr.Stacks i (m + 1) [o] 0 (used ++ results) := by
  obtain ⟨g, o, htook, hg, hst, ho⟩ := hl
  refine ⟨o, h.turn hp htook hg hresults hcount hst ?_⟩
  intro o' ho' cell hcell
  obtain rfl := List.mem_singleton.1 ho'
  exact Nat.le_trans h.temps (ho cell hcell)

/-- **Operands are used, and nothing is left.** -/
theorem Trace.Stacks.uses (h : tr.Stacks i m values count used) {operands : List Operand}
    (hp : Piled operands count (tr.state i).voidResults (tr.state m).voidResults)
    (hu : Uses (tr.line m) operands (tr.state m) (tr.state i).stack (tr.state (m + 1)))
    (hresults : ∀ u ∈ results, u.user = m) (hcount : results.countP tr.isVoid = count) :
    tr.Stacks i (m + 1) [] 0 (used ++ results) := by
  obtain ⟨g, htook, hg, hst⟩ := hu
  exact h.turn hp htook hg hresults hcount hst (List.forall_mem_nil _)

end Stacks

section Operands

/-- **An operand that names no cell** is pushed. -/
theorem Trace.Low.pushes (hl : tr.Low i) (hact : w[i]? = some (.act a)) (ha : isMinding a = false)
    (hst : (tr.state (i + 1)).stack = o :: (tr.state i).stack)
    (ho : Generator.directCell? o = none) : tr.Stacks i (i + 1) [o] 0 [] := by
  refine hl.stacks (tr.heedless_act hact ha) hst ?_
  intro o' ho' cell hcell
  obtain rfl := List.mem_singleton.1 ho'
  rw [ho] at hcell
  cases hcell

variable (hf : tr.Fitted source)
include hf

theorem Trace.Fitted.capacity_le (hi : i ≤ w.length) :
    (tr.state i).memory.capacity ≤ 2 ^ 63 := (hf.settled i hi).temps.2.2.2.2 ▸ hf.capacity

theorem Trace.Fitted.unit_pos (hi : i ≤ w.length) : 0 < (tr.state i).memory.unit :=
  (hf.settled i hi).temps.2.2.1 ▸ hf.unit

theorem Trace.Fitted.temps_le (hi : i ≤ w.length) : tr.temps i ≤ 2 ^ 63 :=
  Nat.le_trans (hf.settled i hi).temps.2.1 hf.capacity

/-- **A name is read.** Its cell is none of the void results. -/
theorem Trace.Fitted.named (hl : tr.Low i) (hact : w[i]? = some (.act .pushId)) :
    ∃ o, tr.Stacks i (i + 1) [o] 0 [] := by
  have hi := Nat.le_of_lt (List.getElem?_eq_some_iff.1 hact).1
  obtain ⟨o, hst, ho⟩ := tr.of_ends hact ((hf.settled i hi).cell_readName hf.unit hf.capacity)
  refine ⟨o, hl.stacks (tr.heedless_act hact rfl) hst ?_⟩
  intro o' ho' cell hcell hmem
  obtain rfl := List.mem_singleton.1 ho'
  exact absurd (ho cell hcell) (Nat.not_lt.2 (hl cell hmem).1)

/-- **An operator** uses the two operands before it. -/
theorem Trace.Fitted.combines (hact : w[m]? = some (.act a))
    (ha : a = .add ∨ a = .sub ∨ a = .mult ∨ a = .power ∨ a = .elementValue ∨ a = .elementAddress)
    {left right : Operand} (h : tr.Stacks i m [right, left] count used)
    (hresults : ∀ u ∈ results, u.user = m) (hcount : results.countP tr.isVoid = count) :
    ∃ o, tr.Stacks i (m + 1) [o] 0 (used ++ results) := by
  have hm := Nat.le_of_lt (List.getElem?_eq_some_iff.1 hact).1
  have hsmall := hf.capacity_le hm
  have hunit := hf.unit_pos hm
  have hst : (tr.state m).stack = right :: left :: (tr.state i).stack := h.stack
  refine h.leaves h.piled (tr.of_ends (Q := fun _ g => Leaves (tr.line m) [right, left] (tr.state m)
    (tr.state i).stack g) hact ?_) hresults hcount
  rcases ha with rfl | rfl | rfl | rfl | rfl | rfl
  · exact leaves_combine hsmall hunit hst
  · exact leaves_combine hsmall hunit hst
  · exact leaves_combine hsmall hunit hst
  · obtain ⟨hfrom, -, -, hzone, -⟩ := (hf.settled m hm).temps
    exact leaves_raise hsmall hunit (hzone.symm ▸ hfrom) hst
  · exact leaves_element hsmall hunit hst
  · exact leaves_element hsmall hunit hst

end Operands

section Calls

variable {f : String} {arguments : List Expr}

/-- How many of the values of a row are void results. -/
def Trace.rowVoids (tr : Trace (.reserving c.keywords) w) (es : List Expr) (i : Nat) : Nat :=
  (rowResults es i 0).countP tr.isVoid

theorem Trace.rowVoids_cons {e : Expr} {rest : List Expr} : tr.rowVoids (e :: rest) i =
    tr.rowVoids rest (i + e.marks.length + 2) + tr.voids e i := List.countP_append

theorem Trace.countP_rowResults (es : List Expr) (i user : Nat) :
    (rowResults es i user).countP tr.isVoid = tr.rowVoids es i := by
  induction es generalizing i with
  | nil => rfl
  | cons e rest ih =>
    rw [rowResults, List.countP_append, ih, tr.countP_result, tr.rowVoids_cons]

/-- An argument is counted. -/
theorem Trace.Stacks.takes (h : tr.Stacks i n (o :: .immediate values.length :: values) count used)
    (htake : w[n]? = some (.act .takeArgument)) (hlength : values.length + 1 < 2 ^ 63) :
    tr.Stacks i (n + 1) (.immediate (o :: values).length :: o :: values) count used := by
  have hheedless : Heedless (tr.state n) (tr.state (n + 1)) := tr.heedless_act htake rfl
  refine ⟨h.low, Nat.le_trans h.temps hheedless.temps, tr.takes htake h.stack hlength, ?_, ?_, ?_⟩
  · rw [h.fresh.voids hheedless]
    exact .value nofun (h.piled.skip rfl)
  · exact h.fresh.below hheedless
  · rw [hheedless.errors, h.reported]

/-- **A fresh result is left,** above all that is void, and may be void itself. -/
theorem Trace.Low.result (hl : tr.Low i) {void : Bool} (hle : tr.temps i ≤ tr.temps n)
    (hfrom : c.tempsFrom ≤ tr.temps n) (hword : tr.temps n < 2 ^ 63)
    (hstep : tr.temps n < tr.temps (n + 1))
    (hst : (tr.state (n + 1)).stack = .direct (tr.temps n) :: (tr.state i).stack)
    (hmarks : (tr.state (n + 1)).voidResults =
      (if void then [tr.temps n] else []) ++ (tr.state i).voidResults)
    (herrors : (tr.state (n + 1)).voidErrors = (tr.state i).voidErrors ++ tr.reports used) :
    tr.Stacks i (n + 1) [.direct (tr.temps n)] (if void then 1 else 0) used where
  low := hl
  temps := Nat.le_of_lt (Nat.lt_of_le_of_lt hle hstep)
  stack := hst
  piled := by
    have hnot : tr.temps n ∉ (tr.state i).voidResults := fun hc =>
      absurd (Nat.lt_of_lt_of_le (hl _ hc).2 hle) (Nat.lt_irrefl _)
    rw [hmarks]
    cases void with
    | true => exact .void (directCell?_direct hword) hnot .nil
    | false =>
      refine .value (fun cell hcell => ?_) .nil
      rw [directCell?_direct hword, Option.some.injEq] at hcell
      exact hcell ▸ hnot
  fresh := by
    intro cell hc
    rw [hmarks, List.mem_append] at hc
    rcases hc with hc | hc
    · split at hc
      · obtain rfl := List.mem_singleton.1 hc
        exact ⟨hfrom, hstep⟩
      · cases hc
    · obtain ⟨hzone, hlt⟩ := hl cell hc
      exact ⟨hzone, by omega⟩
  reported := herrors

/-- **The mark of a call.** Its result is void if the definition of the function has ended and no return
with a value belongs to it. -/
theorem Trace.Fitted.voids_called (hf : tr.Fitted source) (hk : w[n]? = some (.act .dispatch))
    {k : Known} (hmem : k ∈ Stretch.all (tr.stretches n)) {g : Generator} {operands : List Operand}
    (hsymbols : g.symbols = (tr.state n).symbols) (hnext : g.memory.tempNext = tr.temps n)
    (hlow : ∀ cell ∈ g.voidResults, cell < tr.temps n) :
    (g.called (k.row tr.made) (k.info tr.made) operands).voidResults =
      (if k.ended && !k.givesValue then [tr.temps n] else []) ++ g.voidResults := by
  have hinside : g.symbols.scopes.insideBody g.symbols.currentScope (k.row tr.made) = !k.ended := by
    rw [hsymbols]
    exact hf.insideBody hf.whole hk hmem
  refine (Emission.voids_called fun cell hc => hnext ▸ hlow cell hc).trans ?_
  change (if !k.givesValue && !g.symbols.scopes.insideBody g.symbols.currentScope
    (k.row tr.made) then [g.memory.tempNext] else []) ++ g.voidResults = _
  rw [hinside, hnext, Bool.not_not, Bool.and_comm]

/-- **A call uses its arguments.** Its own result is void if the function that it selects gives no
value. -/
theorem Trace.Fitted.dispatches (hf : tr.Fitted source) {operands : List Operand}
    (hk : w[n]? = some (.act .dispatch)) (hx : Unmarked f) {calls : List String}
    (hcalls : (tr.state n).pendingCalls = f :: calls)
    (h : tr.Stacks i n (.immediate operands.length :: operands.reverse) count used)
    (hresults : ∀ u ∈ results, u.user = n) (hcount : results.countP tr.isVoid = count) :
    ∃ o, tr.Stacks i (n + 1) [o]
      ([⟨f, operands.length, n, 0⟩].countP tr.isVoid) (used ++ results) := by
  have hn := (List.getElem?_eq_some_iff.1 hk).1
  have hp := h.piled.tail rfl
  obtain ⟨g, htook, hstate⟩ := hf.resolves hf.whole hk hx hcalls h.stack
  have hcalled : Heedless g { g with pendingCalls := calls } := .of_eq rfl rfl rfl
  rw [List.countP_singleton, Trace.isVoid]
  cases hcallee : Stretch.callee? (tr.stretches n) f operands.length with
  | none =>
    -- an error of another kind is reported, and the result is no cell
    rw [hcallee] at hstate
    have hfault : (if Stretch.visible (tr.stretches n) f = [] then .undefined f
        else .argumentCount f) ≠ SemanticFault.voidOperand := by
      split <;> nofun
    refine ⟨.immediate 0, h.turn hp htook ?_ hresults hcount ?_ ?_⟩
    · rw [hstate]
      exact hcalled.trans ((heedless_report hfault _ _).trans (heedless_push _ _))
    · rw [hstate]
      exact congrArg (_ :: ·) htook.stack
    · intro o ho cell hcell
      obtain rfl := List.mem_singleton.1 ho
      cases hcell
  | some k =>
    rw [hcallee] at hstate
    have hmem : k ∈ Stretch.all (tr.stretches n) :=
      Stretch.mem_all_of_visible (List.mem_of_find?_eq_some hcallee)
    obtain ⟨hvoids, herrors⟩ := htook.piled hp
    -- the result is the next temporary, which is in use from now on
    have hnext : g.memory.tempNext = tr.temps n := congrArg Memory.tempNext htook.memory
    have htemps : tr.temps (n + 1) = tr.temps n + (tr.state n).memory.unit := by
      rw [Trace.temps, hstate]
      exact tempNext_called.trans (by rw [← hnext, ← htook.memory])
    have hstep : tr.temps n < tr.temps (n + 1) := by
      have hunit := hf.unit_pos (Nat.le_of_lt hn)
      omega
    have hlow : ∀ cell ∈ g.voidResults, cell < tr.temps n := by
      intro cell hc
      rw [hvoids] at hc
      exact Nat.lt_of_lt_of_le (h.low cell hc).2 h.temps
    refine ⟨.direct (tr.temps n), h.low.result h.temps (hf.settled n (Nat.le_of_lt hn)).temps.1
      (Nat.lt_of_lt_of_le hstep (hf.temps_le hn)) hstep ?_ ?_ ?_⟩
    · rw [hstate]
      refine Generator.stack_called.trans ?_
      change Operand.direct g.memory.tempNext :: g.stack = _
      rw [hnext, htook.stack]
    · rw [hstate, ← hvoids]
      exact hf.voids_called hk hmem htook.symbols hnext hlow
    · rw [hstate, Generator.voidErrors, Generator.errors_called]
      change g.voidErrors = _
      rw [herrors, h.reported, tr.reports_append, tr.reports_eq_replicate hresults, hcount,
        List.append_assoc]

end Calls

end OnePass.Derivation

namespace OnePass.Syntax

open OnePass.Derivation Emission Names Target
open Grammar (Action Mark Terminal)

section Trees

variable {c : Config} {source : String} {w : List Mark} {i j m n count : Nat}
  {used : List UsedResult} {values : List Operand} {a : Action} {t : Terminal} {x : String}
  {tr : Trace (.reserving c.keywords) w}

/-- The results of two operands, the right one first. -/
theorem user_of_mem_both {left right : Expr} {u : UsedResult}
    (h : u ∈ right.result n m ++ left.result i m) : u.user = m := by
  rcases List.mem_append.1 h with h | h
  · exact Expr.user_of_mem_result h
  · exact Expr.user_of_mem_result h

/-- **Two operands** and their operator. -/
theorem stacks_both (hf : tr.Fitted source) {left right : Expr} {o : Operand}
    (hleft : tr.Stacks i n [o] (tr.voids left i) (left.inner i)) (hread : w[n]? = some (.read t x))
    (hright : tr.Low (n + 1) →
      ∃ o, tr.Stacks (n + 1) m [o] (tr.voids right (n + 1)) (right.inner (n + 1)))
    (hact : w[m]? = some (.act a)) (ha : a = .add ∨ a = .sub ∨ a = .mult ∨ a = .power) :
    ∃ o, tr.Stacks i (m + 1) [o] 0 (left.inner i ++ (right.inner (n + 1) ++
      (right.result (n + 1) m ++ left.result i m))) := by
  have hpast := hleft.read hread
  obtain ⟨r, hr⟩ := hright hpast.fresh
  rw [← List.append_assoc]
  refine hf.combines hact (by tauto) (hpast.trans hr) (fun u => user_of_mem_both) ?_
  rw [List.countP_append, tr.countP_result, tr.countP_result]

mutual

/-- **A value leaves one operand,** which is void if the value is a call that gives no value. -/
theorem Expr.stacks (hf : tr.Fitted source) : ∀ (e : Expr) {i j : Nat}, Span w i j e.marks →
    tr.Low i → ∃ o, tr.Stacks i j [o] (tr.voids e i) (e.inner i)
  | .number digits, i, j, h, hl => by
    simp only [Expr.marks, span_cons, span_nil] at h
    obtain ⟨hread, hact, rfl⟩ := h
    have hpast := hl.stays (tr.heedless_read hread) (tr.stack_read hread)
    have hpushed := tr.of_ends hact (ends_push (Q := fun _ g' => g' = _).2 rfl)
    have hpush := hpast.fresh.pushes hact rfl (congrArg Generator.stack hpushed) rfl
    exact ⟨_, hpast.trans hpush⟩
  | .name x, i, j, h, hl => by
    simp only [Expr.marks, span_cons, span_nil] at h
    obtain ⟨hread, hcheck, hact, rfl⟩ := h
    have hpast := (hl.stays (tr.heedless_read hread) (tr.stack_read hread)).act hcheck rfl
      (tr.trades hcheck)
    obtain ⟨o, hnamed⟩ := hf.named hpast.fresh hact
    exact ⟨o, hpast.trans hnamed⟩
  | .element x index, i, j, h, hl => by
    simp only [Expr.marks, span_cons, span_append, span_nil] at h
    obtain ⟨hread, hcheck, hname, hopen, n, hindex, hclose, hact, rfl⟩ := h
    have hpast := (hl.stays (tr.heedless_read hread) (tr.stack_read hread)).act hcheck rfl
      (tr.trades hcheck)
    obtain ⟨base, hnamed⟩ := hf.named hpast.fresh hname
    have hbase := (hpast.trans hnamed).read hopen
    obtain ⟨o, ho⟩ := index.stacks hf hindex hbase.fresh
    obtain rfl := hindex.eq_add
    exact hf.combines hact (by simp) ((hbase.trans ho).read hclose)
      (fun _ => Expr.user_of_mem_result) (tr.countP_result _ _ _)
  | .call f arguments, i, j, h, hl => by
    have hlength := length_lt_of_span hf.counted h
    have hspan := h
    simp only [Expr.marks, span_cons, span_append, span_nil] at h
    obtain ⟨hread, hbegin, hopen, n, hrow, hclose, hact, rfl⟩ := h
    obtain ⟨hcalls, hx⟩ := hf.waits hspan
    -- the number of arguments is pushed first
    have hpast := hl.stays (tr.heedless_read hread) (tr.stack_read hread)
    have hbegun := (hpast.trans (hpast.fresh.pushes hbegin rfl (tr.trades hbegin) rfl)).read hopen
    obtain ⟨values, hcount, hvalues⟩ := row_stacks hf arguments hrow hbegun hlength
    obtain rfl := hrow.eq_add
    have hready := hvalues.read hclose
    -- the last argument lies on top
    obtain ⟨operands, rfl⟩ : ∃ operands : List Operand, values = operands.reverse :=
      ⟨values.reverse, values.reverse_reverse.symm⟩
    rw [List.length_reverse] at hready hcount
    obtain ⟨o, ho⟩ := hf.dispatches hact hx hcalls hready (fun _ => user_of_mem_rowResults)
      (tr.countP_rowResults arguments _ _)
    rw [hcount] at ho
    exact ⟨o, ho⟩
  | .power base exponent, i, j, h, hl => by
    simp only [Expr.marks, span_cons, span_append, span_nil] at h
    obtain ⟨n, hbase, hread, m, hexponent, hact, rfl⟩ := h
    obtain ⟨b, hb⟩ := base.stacks hf hbase hl
    have hboth := stacks_both hf hb hread (exponent.stacks hf hexponent) hact (by simp)
    obtain rfl := hbase.eq_add
    obtain rfl := hexponent.eq_add
    exact hboth
  | .combine op left right, i, j, h, hl => by
    simp only [Expr.marks, span_cons, span_append, span_nil] at h
    obtain ⟨n, hleft, hread, m, hright, hact, rfl⟩ := h
    obtain ⟨l, hlt⟩ := left.stacks hf hleft hl
    have hop : op.action = .add ∨ op.action = .sub ∨ op.action = .mult ∨ op.action = .power := by
      cases op <;> simp [Operator.action]
    have hboth := stacks_both hf hlt hread (right.stacks hf hright) hact hop
    obtain rfl := hleft.eq_add
    obtain rfl := hright.eq_add
    exact hboth

/-- The arguments of a call lie below their number. -/
theorem row_stacks (hf : tr.Fitted source) : ∀ (es : List Expr) {s i j : Nat},
    Span w i j (rowMarks .takeArgument es) → tr.Stacks s i [.immediate 0] 0 [] →
      es.length < 2 ^ 63 → ∃ values, values.length = es.length ∧
        tr.Stacks s j (.immediate values.length :: values) (tr.rowVoids es i) (rowInner es i)
  | [], s, i, j, h, hs, _ => by
    obtain rfl : i = j := h
    exact ⟨[], rfl, hs⟩
  | e :: rest, s, i, j, h, hs, hlength => by
    simp only [rowMarks, span_cons, span_append] at h
    obtain ⟨n, he, htake, hrest⟩ := h
    obtain ⟨o, ho⟩ := e.stacks hf he hs.fresh
    rw [List.length_cons] at hlength
    have hfirst : tr.Stacks s n (o :: .immediate (([] : List Operand).length : Int) :: [])
        (tr.voids e i) (e.inner i) := hs.trans ho
    obtain ⟨values, hvalues, hrow⟩ := rest_stacks hf rest hrest (hfirst.takes htake (by decide)) (by
      rw [List.length_singleton]
      omega)
    obtain rfl := he.eq_add
    refine ⟨values, by rw [hvalues, List.length_singleton, List.length_cons, Nat.add_comm], ?_⟩
    rw [rowInner, tr.rowVoids_cons]
    exact hrow

theorem rest_stacks (hf : tr.Fitted source) : ∀ (es : List Expr) {s i j : Nat}
    {values : List Operand} {count : Nat} {used : List UsedResult}, Span w i j (restMarks .takeArgument es) →
      tr.Stacks s i (.immediate values.length :: values) count used →
        values.length + es.length < 2 ^ 63 → ∃ values', values'.length = values.length + es.length ∧
          tr.Stacks s j (.immediate values'.length :: values') (tr.rowVoids es (i + 1) + count)
            (used ++ rowInner es (i + 1))
  | [], s, i, j, values, count, used, h, hs, _ => by
    obtain rfl : i = j := h
    refine ⟨values, rfl, ?_⟩
    rw [rowInner, List.append_nil]
    exact (Nat.zero_add count).symm ▸ hs
  | e :: rest, s, i, j, values, count, used, h, hs, hlength => by
    simp only [restMarks, span_cons, span_append] at h
    obtain ⟨hread, n, he, htake, hrest⟩ := h
    have hpast := hs.read hread
    obtain ⟨o, ho⟩ := e.stacks hf he hpast.fresh
    rw [List.length_cons] at hlength
    have htaken := (hpast.trans ho).takes htake (by omega)
    obtain ⟨values', hvalues, hrow⟩ := rest_stacks hf rest hrest htaken (by
      rw [List.length_cons]
      omega)
    obtain rfl := he.eq_add
    refine ⟨values', by rw [hvalues, List.length_cons, List.length_cons]; omega, ?_⟩
    rw [rowInner, tr.rowVoids_cons, Nat.add_assoc, ← List.append_assoc]
    exact hrow

end

/-- **A relation uses its two sides,** between which its operator lies. -/
theorem Relation.stacks (hf : tr.Fitted source) (r : Relation) (h : Span w i j r.marks)
    (hl : tr.Low i) : ∃ o, tr.Stacks i j [o] 0 (r.used i) := by
  simp only [Relation.marks, span_cons, span_append, span_nil] at h
  obtain ⟨n, hleft, hread, hmarker, m, hright, hact, rfl⟩ := h
  obtain ⟨left, hl'⟩ := r.left.stacks hf hleft hl
  have hpast := hl'.read hread
  have hminding : isMinding r.marker = false := by
    unfold Relation.marker
    split <;> rfl
  -- the operator lies between the two sides, and names no cell
  have hpushed := tr.of_ends hmarker (Relation.ends_marker r)
  have hmarked := hpast.trans
    (hpast.fresh.pushes hmarker hminding (congrArg Generator.stack hpushed) rfl)
  obtain ⟨right, hr⟩ := r.right.stacks hf hright hmarked.fresh
  have hboth := hmarked.trans hr
  have hm := Nat.le_of_lt (List.getElem?_eq_some_iff.1 hact).1
  have hleaves := tr.of_ends (Q := fun _ g => Leaves (tr.line m) [right, left] (tr.state m)
    (tr.state i).stack g) hact (leaves_relate (hf.capacity_le hm) (hf.unit_pos hm) hboth.stack)
  have hresults : (r.right.result (n + 2) m ++ r.left.result i m).countP tr.isVoid =
      tr.voids r.right (n + 2) + (0 + tr.voids r.left i) := by
    rw [List.countP_append, tr.countP_result, tr.countP_result, Nat.zero_add]
  have hdone := hboth.leaves (hboth.piled.skip rfl) hleaves (fun u => user_of_mem_both) hresults
  obtain rfl := hleft.eq_add
  obtain rfl := hright.eq_add
  simpa [Relation.used] using hdone

/-- An item of a list is stored in its place. -/
theorem item_stacks (hf : tr.Fitted source) {s : Nat} {o : Operand} (e : Expr)
    (h : Span w i n e.marks) (hact : w[n]? = some (.act .listItem)) (hs : tr.Stacks s i [o] 0 used) :
    tr.Stacks s (n + 1) [o] 0 (used ++ (e.inner i ++ e.result i n)) := by
  obtain ⟨v, hv⟩ := e.stacks hf h hs.fresh
  have huses := tr.of_ends (Q := fun _ g => Uses (tr.line n) [v] (tr.state n) (tr.state i).stack g)
    hact (uses_storeItem hv.stack)
  exact hs.trans (hv.uses hv.piled huses (fun _ => Expr.user_of_mem_result)
    (tr.countP_result e i n))

/-- The items of a list are used one by one. -/
theorem items_stacks (hf : tr.Fitted source) {s : Nat} {o : Operand} : ∀ (es : List Expr)
    {i j : Nat} {used : List UsedResult}, Span w i j (restMarks .listItem es) →
      tr.Stacks s i [o] 0 used → tr.Stacks s j [o] 0 (used ++ itemsUsed es (i + 1)) := by
  intro es
  induction es with
  | nil =>
    intro i j used h hs
    obtain rfl : i = j := h
    rwa [itemsUsed, List.append_nil]
  | cons e rest ih =>
    intro i j used h hs
    simp only [restMarks, span_cons, span_append] at h
    obtain ⟨hread, n, he, hact, hrest⟩ := h
    have hitem := ih hrest (item_stacks hf e he hact (hs.read hread))
    obtain rfl := he.eq_add
    simpa [itemsUsed] using hitem

/-- **What is assigned leaves one operand,** be it a value or the address of a list. -/
theorem Assigned.stacks (hf : tr.Fitted source) (v : Assigned) (h : Span w i j v.marks)
    (hl : tr.Low i) : ∃ o, tr.Stacks i j [o] ((v.result i 0).countP tr.isVoid) (v.inner i) := by
  cases v with
  | value e => exact e.stacks hf h hl
  | list first rest =>
    simp only [Assigned.marks, rowMarks, span_cons, span_append, span_nil] at h
    obtain ⟨hread, hbegin, m, ⟨n, hfirst, hact, hrest⟩, hclose, rfl⟩ := h
    have hpast := hl.stays (tr.heedless_read hread) (tr.stack_read hread)
    have hpushed := tr.of_ends hbegin (show Ends startList _ fun _ g' =>
        ∃ value : Int, g'.stack = .immediate value :: (tr.state (i + 1)).stack by
      simp only [startList, ends_bind, ends_get, ends_push]
      exact ⟨_, rfl⟩)
    obtain ⟨value, hvalue⟩ := hpushed
    have hbegun := hpast.trans (hpast.fresh.pushes hbegin rfl hvalue rfl)
    have hitems := (items_stacks hf rest hrest (item_stacks hf first hfirst hact hbegun)).read hclose
    obtain rfl := hfirst.eq_add
    refine ⟨.immediate value, ?_⟩
    simp only [List.nil_append, List.append_assoc] at hitems
    exact hitems

end Trees

end OnePass.Syntax
