import OnePass.Proofs.Emission.Items
import OnePass.Proofs.Syntax.Calculation

/-!
# The items of a list lie side by side

A list is the address of the cell that is handed out next when it begins. Its items are computed
one after the other, and values hand out no cells, whatever is called in them; so each item is
stored right behind the one before, and the address that a list leaves is that of its first item.

* `Statement.list?`, `accessMarks`: lists that are assigned, and accesses to elements.
* `Trace.items`: the cells of items so far. `Trace.Spotless.stored`: nothing else has them.
* `LaidOut`: **a list whose items lie side by side.** `Trace.Locates`: where an element is found.
* `lists_of_compile`: the lists of a text without errors.
-/

namespace OnePass.Syntax

open Grammar (Action Mark)

/-- The items of the list that a statement assigns, if it does. -/
def Statement.list? : Statement → Option (List Expr)
  | .assign _ (.list first rest) | .assignElement _ _ (.list first rest) => some (first :: rest)
  | _ => none

theorem Statement.length_list?_pos {s : Statement} {items : List Expr} (h : s.list? = some items) :
    0 < items.length := by
  unfold list? at h
  split at h
  · obtain rfl := Option.some.inj h
    exact Nat.succ_pos _
  · obtain rfl := Option.some.inj h
    exact Nat.succ_pos _
  · cases h

/-- The marks of an access to an element, which is read or is about to be assigned. -/
def accessMarks (x : String) (index : Expr) (asValue : Bool) : List Mark :=
  (Expr.name x).marks ++ (word .leftBracket :: (index.marks ++
    [word .rightBracket, .act (if asValue then .elementValue else .elementAddress)]))

/-- What a name is assigned to is the nearest that it stands for. -/
theorem Frame.nearest?_of_own? {frames : List Frame} {x : String} {cell : Nat}
    (h : Frame.own? frames x = some cell) : Frame.nearest? frames x = some cell :=
  Bindings.read?_of_own? (b := ⟨0, 0, frames⟩) h

theorem Frame.nearest?_bind {frames : List Frame} (h : frames ≠ []) (x : String) (cell : Nat) :
    Frame.nearest? (Frame.bind frames x cell) x = some cell := by
  obtain ⟨f, outer, rfl⟩ := List.exists_cons_of_ne_nil h
  simp [Frame.nearest?, Frame.bind]

end OnePass.Syntax

namespace OnePass.Derivation

open Emission Names Syntax Target
open Grammar (Action Mark Terminal)

/-- **The cells of the items so far,** the latest first. -/
def Trace.items {E : Setting} {w : List Mark} (tr : Trace E w) : Nat → List Nat
  | 0 => []
  | i + 1 =>
    match w[i]? with
    | some (.act a) => (tr.state i).newItems a ++ tr.items i
    | _ => tr.items i

variable {c : Config} {source : String} {w v : List Mark} {i j m n : Nat} {x : String} {a : Action}
  {tr : Trace (.reserving c.keywords) w} {p : Program}

/-- **A text without errors,** and a program that holds its code. Names are in their places, and no
call has more arguments than can be counted. -/
structure Trace.Spotless (tr : Trace (.reserving c.keywords) w) (source : String) (p : Program) : Prop
    extends tr.Meaningful source p where
  clean : tr.Clean c
  placed : ∀ i, Placed w i
  counted : Grammar.counted w < 2 ^ 63

namespace Trace.Spotless

variable (hs : tr.Spotless source p)
include hs

/-- Items stay apart along one mark. -/
theorem stored_step {floor : Nat} (hi : i < w.length) (h : Stored floor (tr.items i) [] (tr.state i)) :
    Stored floor (tr.items (i + 1)) [] (tr.state (i + 1)) := by
  rcases hk : w[i] with ⟨t, x⟩ | a
  · have hread := List.getElem?_eq_some_iff.2 ⟨hi, hk⟩
    rw [Trace.items, hread]
    rcases (tr.reads hread).2 with heq | ⟨token, -, heq⟩
    · rwa [heq]
    · rw [heq]
      exact h.record token
  · have hact := List.getElem?_eq_some_iff.2 ⟨hi, hk⟩
    rw [Trace.items, hact]
    exact tr.of_ends hact (h.perform a (tr.lexeme i)) (hs.clean.errors_act hact)

/-- **All along the text** nothing else has the cell of an item. -/
theorem stored (hi : i ≤ w.length) : Stored 0 (tr.items i) [] (tr.state i) := by
  induction i with
  | zero =>
    have hstart : Stored 0 [] [] (.ofConfig c) := by
      refine ⟨hs.unit_pos, rfl, Nat.zero_le _, nofun, nofun, fun a ha => ?_⟩
      rcases ha with ⟨row, m, hm, ha⟩ | ⟨d, hd, -⟩
      · rw [SymbolTable.meaning?_ofKeywords hm] at ha
        cases ha
      · cases hd
    rw [hs.start]
    rcases generator_begun c source with heq | ⟨-, heq⟩
    · rw [heq]
      exact hstart
    · rw [heq]
      exact hstart.record _
  | succ i ih => exact hs.stored_step hi (ih (Nat.le_of_succ_le hi))

/-- Cells are handed out in one direction. -/
theorem next_le (hij : i ≤ j) (hj : j ≤ w.length) :
    (tr.state i).memory.dataNext ≤ (tr.state j).memory.dataNext := by
  suffices h : Stored (tr.state i).memory.dataNext (tr.items j) [] (tr.state j) from h.above
  induction hij with
  | refl => exact (hs.stored hj).raise
  | step _ ih => exact hs.stored_step hj (ih (Nat.le_of_succ_le hj))

omit hs in
/-- The cell of an item is among those of the items so far, from then on. -/
theorem mem_items (hact : w[n]? = some (.act .listItem)) (hn : n < i) :
    (tr.state n).memory.dataNext ∈ tr.items i := by
  induction hn with
  | refl =>
    rw [Trace.items, hact]
    exact List.mem_cons_self
  | @step i _ ih =>
    rw [Trace.items]
    split
    · exact List.mem_append_right _ ih
    · exact ih

/-- A name that is read takes no cell and is bound nowhere. -/
theorem keeps_read (hact : w[i]? = some (.act .pushId)) : tr.frames (i + 1) = tr.frames i ∧
    (tr.state (i + 1)).memory.dataNext = (tr.state i).memory.dataNext := by
  obtain ⟨x, n, rfl, hspan⟩ := (hs.placed i).read hact
  obtain ⟨-, -, hframes, -, hmemory⟩ := hs.name hspan
  obtain ⟨hread, hcheck, -⟩ := hspan
  have hchecked := tr.of_ends hcheck ((aloof_dataNext _).perform rfl _ rfl)
  rw [hframes, hmemory, hchecked, tr.memory_read hread, tr.frames_act hcheck, tr.frames_read hread]
  exact ⟨rfl, rfl⟩

/-- **Values take no cells and bind nothing,** whatever is called in them. -/
theorem keeps (hspan : Span w i j v) (hv : Acting isOfValue v) : tr.frames j = tr.frames i ∧
    (tr.state j).memory.dataNext = (tr.state i).memory.dataNext := by
  induction v generalizing i with
  | nil =>
    obtain rfl : i = j := hspan
    exact ⟨rfl, rfl⟩
  | cons k v ih =>
    obtain ⟨hk, hrest⟩ := span_cons.1 hspan
    rcases k with ⟨t, x⟩ | a
    · obtain ⟨hframes, hnext⟩ := ih hrest (acting_read.1 hv)
      rw [hframes, hnext, tr.frames_read hk, tr.memory_read hk]
      exact ⟨rfl, rfl⟩
    · obtain ⟨ha, hv⟩ := acting_act.1 hv
      obtain ⟨hframes, hnext⟩ := ih hrest hv
      rw [hframes, hnext]
      by_cases hname : a = .pushId
      · exact hs.keeps_read (hname ▸ hk)
      · have haside : isAside a = true := by
          cases a <;> first | rfl | exact absurd rfl hname | cases ha
        refine ⟨?_, tr.of_ends hk ((aloof_dataNext _).perform haside _ rfl)⟩
        rw [tr.frames_act hk, Frame.behind_aside haside]

/-- A name that is assigned to is found, from then on, in the cell that is pushed. -/
theorem target (hspan : Span w i j (Use.target.marks x)) : ∃ cell,
    Frame.nearest? (tr.frames j) x = some cell ∧
      (tr.state j).stack = .direct cell :: (tr.state i).stack := by
  obtain ⟨hframes, hdone⟩ := hs.use hspan
  have hi := Nat.le_of_lt (List.getElem?_eq_some_iff.1 hspan.1).1
  have hstack := hdone.stack
  rw [hframes]
  cases hown : Frame.own? (tr.frames i) x with
  | some cell =>
    refine ⟨cell, ?_, ?_⟩
    · simpa [Use.resolve, Resolution.orNew, hown] using Frame.nearest?_of_own? hown
    · simpa [Use.resolve, Resolution.orNew, hown] using hstack
  | none =>
    obtain ⟨f, outer, hcons⟩ := (hs.depicted i hi).depicts.mirror.exists_cons
    refine ⟨(tr.state i).memory.nextCell, ?_, ?_⟩
    · simpa [Use.resolve, Resolution.orNew, hown] using
        Frame.nearest?_bind (hcons ▸ List.cons_ne_nil f outer) x _
    · simpa [Use.resolve, Resolution.orNew, hown] using hstack

end Trace.Spotless

end OnePass.Derivation

namespace OnePass.Syntax

open OnePass.Derivation Emission Names Target
open Grammar (Action Mark Terminal)

variable {c : Config} {source : String} {w : List Mark} {i j m n base : Nat} {x : String}
  {tr : Trace (.reserving c.keywords) w} {p : Program} {e : Expr} {es : List Expr}

/-- **An item that is stored** in a cell: its value is computed, and then it is taken from the stack. -/
structure StoresItem (tr : Trace (.reserving c.keywords) w) (p : Program) (e : Expr) (cell m n : Nat) :
    Prop where
  value : Span w m n e.marks
  action : w[n]? = some (.act .listItem)
  next : (tr.state n).memory.dataNext = cell
  stored : ∃ o, (tr.state n).stack = o :: (tr.state m).stack ∧
    Holds p (tr.slots n) (.assign o (.direct cell))

/-- **Items that are stored side by side,** and nothing else that happens between two places. -/
structure StoresItems (tr : Trace (.reserving c.keywords) w) (p : Program) (es : List Expr)
    (base i j : Nat) : Prop where
  le : i ≤ j
  stack : (tr.state j).stack = (tr.state i).stack
  frames : tr.frames j = tr.frames i
  next : (tr.state j).memory.dataNext = base + es.length * c.unit
  items : ∀ k (hk : k < es.length), ∃ m n, i ≤ m ∧ n < j ∧
    StoresItem tr p es[k] (base + k * c.unit) m n

/-- A token may stand before the items. -/
theorem StoresItems.read {t : Terminal} (h : StoresItems tr p es base (i + 1) j)
    (hread : w[i]? = some (.read t x)) : StoresItems tr p es base i j where
  le := Nat.le_of_succ_le h.le
  stack := h.stack.trans (tr.stack_read hread)
  frames := h.frames.trans (tr.frames_read hread)
  next := h.next
  items k hk := by
    obtain ⟨m, n, hm, hn, hitem⟩ := h.items k hk
    exact ⟨m, n, Nat.le_of_succ_le hm, hn, hitem⟩

section Items

variable (hs : tr.Spotless source p)
include hs

/-- **An item is stored in the next cell,** whatever its value calls. -/
theorem stores_item (hspan : Span w m n e.marks) (hact : w[n]? = some (.act .listItem)) :
    StoresItem tr p e (tr.state m).memory.dataNext m n ∧
      (tr.state (n + 1)).stack = (tr.state m).stack ∧ tr.frames (n + 1) = tr.frames m ∧
        (tr.state (n + 1)).memory.dataNext = (tr.state m).memory.dataNext + c.unit := by
  have hn := Nat.le_of_lt (List.getElem?_eq_some_iff.1 hact).1
  obtain ⟨hframes, hnext⟩ := hs.keeps hspan e.acting
  obtain ⟨o, ho⟩ := e.pushes tr hs.counted hspan
  obtain ⟨g, htook, hstate⟩ := tr.of_ends hact (ends_storeItem_eq ho)
  have hmemory := htook.memory
  have hunit : g.memory.unit = c.unit := hmemory ▸ (hs.settled_at hn).temps.2.2.1
  refine ⟨⟨hspan, hact, hnext, o, ho, hs.holds hact ?_⟩, ?_, ?_, ?_⟩
  · rw [hstate, ← hnext, tr.slots_eq, ← hmemory]
    exact holds_push _ _
  · rw [hstate]
    exact htook.stack
  · rw [tr.frames_act hact]
    exact hframes
  · rw [hstate, ← hnext, ← hunit, ← hmemory]
    rfl

/-- One item, and the others behind it. -/
theorem StoresItems.cons (hspan : Span w m n e.marks) (hact : w[n]? = some (.act .listItem))
    (hbase : (tr.state m).memory.dataNext = base)
    (hrest : (tr.state (n + 1)).memory.dataNext = base + c.unit →
      StoresItems tr p es (base + c.unit) (n + 1) j) :
    StoresItems tr p (e :: es) base m j := by
  obtain ⟨hitem, hstack, hframes, hnext⟩ := stores_item hs hspan hact
  rw [hbase] at hitem hnext
  obtain ⟨hle, hstack', hframes', hnext', hitems⟩ := hrest hnext
  have hmn := span_le hspan
  refine ⟨by omega, hstack'.trans hstack, hframes'.trans hframes, ?_, fun k hk => ?_⟩
  · rw [hnext', List.length_cons, Nat.succ_mul, Nat.add_assoc, Nat.add_comm c.unit]
  · cases k with
    | zero =>
      exact ⟨m, n, Nat.le_refl m, hle, by simpa using hitem⟩
    | succ k =>
      obtain ⟨m', n', hm', hn', hitem'⟩ := hitems k (Nat.lt_of_succ_lt_succ hk)
      refine ⟨m', n', by omega, hn', ?_⟩
      rwa [Nat.succ_mul, Nat.add_comm (k * c.unit), ← Nat.add_assoc]

theorem stores_rest : ∀ (es : List Expr) {i j base : Nat}, Span w i j (restMarks .listItem es) →
    (tr.state i).memory.dataNext = base → StoresItems tr p es base i j
  | [], i, j, base, h, hbase => by
    obtain rfl : i = j := h
    exact ⟨Nat.le_refl i, rfl, rfl, by simpa using hbase, nofun⟩
  | e :: rest, i, j, base, h, hbase => by
    simp only [restMarks, span_cons, span_append] at h
    obtain ⟨hread, n, he, hact, hrest⟩ := h
    rw [← tr.memory_read hread] at hbase
    exact ((StoresItems.cons hs he hact hbase fun hnext => stores_rest rest hrest hnext).read hread)

/-- The items of a list. -/
theorem stores_row {first : Expr} {rest : List Expr}
    (hspan : Span w i j (rowMarks .listItem (first :: rest))) :
    StoresItems tr p (first :: rest) (tr.state i).memory.dataNext i j := by
  simp only [rowMarks, span_cons, span_append] at hspan
  obtain ⟨n, hfirst, hact, hrest⟩ := hspan
  exact StoresItems.cons hs hfirst hact rfl fun hnext => stores_rest hs rest hrest hnext

end Items

/-- **A list whose items lie side by side** from a base on, one unit apart. No variable, parameter,
result or return slot ever has the cell of an item, and no item of another list. -/
structure LaidOut (tr : Trace (.reserving c.keywords) w) (p : Program) (es : List Expr)
    (i j base : Nat) : Prop where
  items : ∀ k (hk : k < es.length), ∃ m n, i ≤ m ∧ n < j ∧
    StoresItem tr p es[k] (base + k * c.unit) m n
  unmentioned : ∀ k < es.length, ∀ n ≤ w.length, ¬(tr.state n).Mentions (base + k * c.unit)
  others : ∀ k < es.length, ∀ n, n < i ∨ j ≤ n → w[n]? = some (.act .listItem) →
    (tr.state n).memory.dataNext ≠ base + k * c.unit

/-- A list also lies between places further apart. -/
theorem LaidOut.widen (h : LaidOut tr p es i j base) {i' j' : Nat} (hi : i' ≤ i) (hj : j ≤ j') :
    LaidOut tr p es i' j' base where
  items k hk := by
    obtain ⟨m, n, hm, hn, hitem⟩ := h.items k hk
    exact ⟨m, n, Nat.le_trans hi hm, Nat.lt_of_lt_of_le hn hj, hitem⟩
  unmentioned := h.unmentioned
  others k hk n hn := h.others k hk n (by omega)

/-- **Where an access finds its element:** its code leaves this address in the temporary that it pushes,
if the variable holds this base and the index is this number. -/
def Locates (tr : Trace (.reserving c.keywords) w) (p : Program) (x : String) (asValue : Bool)
    (i m : Nat) (base index address : Int) : Prop :=
  ∃ cell o t, (tr.state i).readCell? x = some cell ∧
    (tr.state m).stack = o :: .direct cell :: (tr.state i).stack ∧
    (tr.state (m + 1)).stack = (if asValue then .indirect t else .direct t) :: (tr.state i).stack ∧
    ∀ s : State, s.slot = tr.slots m → s.cells cell = base → o.read s.cells = index →
      ∃ s', Reaches p s s' ∧ s'.slot = tr.slots (m + 1) ∧ s'.cells t = address

section Lists

variable (hs : tr.Spotless source p)
include hs

theorem StoresItems.laidOut (h : StoresItems tr p es (tr.state i).memory.dataNext i j)
    (hj : j ≤ w.length) : LaidOut tr p es i j (tr.state i).memory.dataNext where
  items := h.items
  unmentioned k hk n hn hmentions := by
    obtain ⟨m, q, hm, hq, hitem⟩ := h.items k hk
    obtain ⟨hlt, hnot⟩ := (hs.stored hn).mentions _ hmentions
    rw [← hitem.next] at hlt hnot
    rcases Nat.lt_or_ge q n with hqn | hnq
    · exact hnot (Trace.Spotless.mem_items hitem.action hqn)
    · exact absurd hlt (Nat.not_lt.2 (hs.next_le hnq (by omega)))
  others k hk n hn hact heq := by
    have hlt := (List.getElem?_eq_some_iff.1 hact).1
    obtain ⟨m, q, hm, hq, hitem⟩ := h.items k hk
    have hqn : q < n ∨ n < q := by
      have := span_le hitem.value
      omega
    rw [← hitem.next] at heq
    -- of two items the later one lies behind the other
    rcases hqn with hqn | hnq
    · have hmem := (hs.stored (Nat.le_of_lt hlt)).behind _
        (Trace.Spotless.mem_items hitem.action hqn)
      omega
    · have hmem := (hs.stored (i := q) (by omega)).behind _ (Trace.Spotless.mem_items hact hnq)
      omega

/-- Items are variable cells. -/
theorem LaidOut.lt (h : LaidOut tr p es i j base) (hes : 0 < es.length) : base < c.tempsFrom := by
  obtain ⟨m, n, -, -, hitem⟩ := h.items 0 hes
  have hn := (List.getElem?_eq_some_iff.1 hitem.action).1
  have hlt := (hs.stored hn).behind _ (Trace.Spotless.mem_items hitem.action (Nat.lt_succ_self n))
  rw [hitem.next, Nat.zero_mul, Nat.add_zero] at hlt
  obtain ⟨_, _, _, hkept⟩ := (hs.settled_at hn).kept
  exact Nat.lt_of_lt_of_le hlt hkept.owned.memory.data_le

/-- **A list leaves the cell of its first item,** and it is assigned to what it was meant for. -/
theorem list_stored {first : Expr} {rest : List Expr} {target : Operand} {st : OperandStack}
    (hspan : Span w i j (Assigned.list first rest).marks) (hact : w[j]? = some (.act .assign))
    (hstack : (tr.state i).stack = target :: st) :
    ∃ base, LaidOut tr p (first :: rest) i j base ∧
      (tr.state j).stack = .immediate (Operand.word base) :: target :: st ∧
      Holds p (tr.slots j) (.assign (.immediate (Operand.word base))
        (writtenThrough (tr.state j).memory target)) ∧ tr.frames (j + 1) = tr.frames i := by
  simp only [Assigned.marks, span_cons, span_append, span_nil] at hspan
  obtain ⟨hopen, hbegin, n, hrow, hclose, rfl⟩ := hspan
  have hn := (List.getElem?_eq_some_iff.1 hclose).1
  have hbegun := tr.of_ends hbegin (Q := fun _ g' => g' =
      (tr.state (i + 1)).push (.immediate (Operand.word (tr.state (i + 1)).memory.dataNext))) (by
    simp only [perform, startList, ends_bind, ends_get, ends_push])
  have hitems := stores_row hs hrow
  have hlaid := hitems.laidOut hs (Nat.le_of_lt hn)
  have hnext : (tr.state (i + 1 + 1)).memory.dataNext = (tr.state (i + 1)).memory.dataNext := by
    rw [hbegun]
    rfl
  have hbelow : (tr.state (n + 1)).stack =
      .immediate (Operand.word (tr.state (i + 1)).memory.dataNext) :: target :: st := by
    rw [tr.stack_read hclose, hitems.stack, hbegun, Generator.stack_push, tr.stack_read hopen, hstack]
  obtain ⟨g, htook, hstate⟩ := tr.of_ends hact (ends_store_eq hbelow)
  refine ⟨_, hnext ▸ hlaid.widen (by omega) (Nat.le_succ n), hbelow, hs.holds hact ?_, ?_⟩
  · rw [hstate, tr.slots_eq, ← htook.memory]
    exact holds_push _ _
  · rw [tr.frames_act hact, Frame.behind_aside rfl, tr.frames_read hclose, hitems.frames,
      tr.frames_act hbegin, Frame.behind_aside rfl, tr.frames_read hopen]

/-- **Every list that is assigned.** -/
theorem Statement.list_stored {s : Statement} (hlist : s.list? = some es)
    (hspan : Span w i (j + 1) s.marks) : ∃ base target, LaidOut tr p es i j base ∧
      (tr.state j).stack = .immediate (Operand.word base) :: target :: (tr.state i).stack ∧
      Holds p (tr.slots j) (.assign (.immediate (Operand.word base))
        (writtenThrough (tr.state j).memory target)) ∧
      ∀ x value, s = .assign x value → ∃ cell, (tr.state (j + 1)).readCell? x = some cell ∧
        writtenThrough (tr.state j).memory target = .direct cell := by
  unfold Statement.list? at hlist
  split at hlist
  · rename_i x first rest
    obtain rfl := Option.some.inj hlist
    simp only [Statement.marks, span_cons, span_append, span_nil] at hspan
    obtain ⟨hread, htarget, hassign, n, hvalue, hact, heq⟩ := hspan
    obtain rfl : n = j := Nat.succ.inj heq
    have hn := (List.getElem?_eq_some_iff.1 hact).1
    obtain ⟨cell, hcell, hpushed⟩ := hs.target (x := x) ⟨hread, htarget, rfl⟩
    obtain ⟨base, hlaid, hstack, hholds, hframes⟩ := list_stored hs hvalue hact
      ((tr.stack_read hassign).trans hpushed)
    rw [← tr.frames_read hassign, ← hframes] at hcell
    refine ⟨base, _, hlaid.widen (by omega) (Nat.le_refl _), hstack, hholds, fun y value hy => ?_⟩
    cases hy
    refine ⟨cell, (hs.depicted _ hn).depicts.readCell?.trans hcell, writtenThrough_direct ?_⟩
    rw [(hs.settled_at (Nat.le_of_lt hn)).temps.2.2.2.1]
    exact hs.lt_of_nearest? hn hcell
  · rename_i x index first rest
    obtain rfl := Option.some.inj hlist
    simp only [Statement.marks, span_cons, span_append, span_nil] at hspan
    obtain ⟨hread, hcheck, hname, hopen, n, hindex, hclose, haddress, hassign, m, hvalue, hact,
      heq⟩ := hspan
    obtain rfl : m = j := Nat.succ.inj heq
    obtain ⟨cell, -, -, hbase, -⟩ := hs.name (show Span w i _ (Expr.name x).marks from
      ⟨hread, hcheck, hname, rfl⟩)
    obtain ⟨o, ho⟩ := index.pushes tr hs.counted hindex
    obtain ⟨target, htarget⟩ := tr.trades haddress o (.direct cell) (tr.state i).stack
      (by rw [tr.stack_read hclose, ho, tr.stack_read hopen, hbase])
    obtain ⟨base, hlaid, hstack, hholds, -⟩ := list_stored hs hvalue hact
      ((tr.stack_read hassign).trans htarget)
    have hle := span_le hindex
    exact ⟨base, target, hlaid.widen (by omega) (Nat.le_refl _), hstack, hholds,
      fun y value hy => by cases hy⟩
  · cases hlist

/-- **Every access finds the element** as many units behind the base as the index says. -/
theorem locates (hr : tr.Resolved source p) {index : Expr} {asValue : Bool} (base k : Int)
    (hspan : Span w i (m + 1) (accessMarks x index asValue)) :
    Locates tr p x asValue i m base k (base + k * c.unit) := by
  simp only [accessMarks, span_cons, span_append, span_nil] at hspan
  obtain ⟨n, hname, hopen, l, hindex, hclose, hact, heq⟩ := hspan
  obtain rfl : l + 1 = m := Nat.succ.inj heq
  have hi := Nat.le_of_lt (span_bounds hname (Expr.marks_ne_nil _)).1
  have hm := Nat.le_of_lt (List.getElem?_eq_some_iff.1 hact).1
  obtain ⟨cell, hcell, -, hbase, -⟩ := hs.name hname
  obtain ⟨o, ho⟩ := index.pushes tr hs.counted hindex
  have hstack : (tr.state (l + 1)).stack = o :: .direct cell :: (tr.state i).stack := by
    rw [tr.stack_read hclose, ho, tr.stack_read hopen, hbase]
  obtain ⟨hpushed, -, hruns⟩ := hr.addressed asValue hact hstack
  have hlow := Nat.lt_of_lt_of_le (hs.lt_of_nearest? hi hcell) (hr.temps hm).1
  refine ⟨cell, o, _, (hs.depicted i hi).depicts.readCell?.trans hcell, hstack, hpushed,
    fun s hslot hv hk => ?_⟩
  obtain ⟨s', hsilent, hslot', haddress⟩ := hruns s hslot (steady_temp hr hm hlow s.cells)
  rw [Operand.read_direct (Nat.lt_of_lt_of_le hlow (hr.temps hm).2), hv, hk] at haddress
  exact ⟨s', hsilent.reaches, hslot', haddress⟩

end Lists

end OnePass.Syntax

namespace OnePass

open OnePass.Derivation Emission Syntax Target
open Grammar (Mark)

/-- **The items of every list lie side by side.** A text that is compiled without an error is a block.
Each list that is assigned in it is laid out from a base on, which is what its target is assigned.
If that is a variable, the name is read from the cell of the variable, and whichever element is
accessed from this base, by an index that is the number of an item, the address that the code of the
access comes to is the cell of that item. No text in memory is as long as `2 ^ 63`. -/
theorem lists_of_compile (c : Config) (source : String) {r : Compilation}
    (h : compile c source = .ok r) (hclean : r.hasErrors = false)
    (hsource : (c.preamble source).length < 2 ^ 63) :
    ∃ o g, parse c (c.preamble source) = .ok o ∧ callMain o.lastLine o.generator = .ok () g ∧
      r.code = some g.memory.listing ∧
      (∃ b : Block, (∀ s ∈ b, s.Graded) ∧ Mark.Spelled (blockMarks b) r.tokens) ∧
      ∀ b : Block, (∀ s ∈ b, s.Graded) → Mark.Spelled (blockMarks b) r.tokens →
        ∃ tr : Trace (.reserving c.keywords) (blockMarks b),
          tr.Tells (c.preamble source) ∧ tr.state (blockMarks b).length = o.generator ∧
          ∀ (s : Statement) (items : List Expr) (i j : Nat), s.list? = some items →
            Span (blockMarks b) i (j + 1) s.marks → ∃ base target,
              LaidOut tr g.memory.program items i j base ∧
              (tr.state j).stack = .immediate (Operand.word base) :: target :: (tr.state i).stack ∧
              Holds g.memory.program (tr.slots j) (.assign (.immediate (Operand.word base))
                (writtenThrough (tr.state j).memory target)) ∧
              (∀ x value, s = .assign x value → ∃ cell,
                (tr.state (j + 1)).readCell? x = some cell ∧
                  writtenThrough (tr.state j).memory target = .direct cell) ∧
              (c.capacity ≤ 2 ^ 63 → Operand.word base = base ∧
                ∀ (x : String) (index : Expr) (asValue : Bool) (n m : Nat),
                  Span (blockMarks b) n (m + 1) (accessMarks x index asValue) →
                    ∀ k < items.length, Locates tr g.memory.program x asValue n m base k
                      ↑(base + k * c.unit)) := by
  obtain ⟨hc, o, g, ho, hmain, rfl⟩ := outcome_of_compile h
  obtain ⟨-, hnone, hsemantic⟩ := hasErrors_eq_false hclean
  obtain ⟨b, -, hgraded, hspelled, -⟩ := trace_of_parse ho hnone
  refine ⟨o, g, ho, hmain, by simp [Outcome.conclude, hsemantic], ⟨b, hgraded, hspelled⟩,
    fun b hb hs => ?_⟩
  obtain ⟨tr, htells, hend⟩ := tells_of_spelled ho hb hs
  obtain ⟨herrors, _, _, _, _, _, _, hext⟩ := ends_callMain_clean () g hmain hsemantic
  have hcounted := counted_le_length ho (derives_block hb) hs
  have hspotless : tr.Spotless (c.preamble source) g.memory.program :=
    { toTells := htells
      valid := hc
      defined := by simp [hend, herrors]
      program := hend ▸ hext.kept
      clean := ⟨rfl, fun i hi => htells.settled hc hi, hend ▸ herrors⟩
      placed := placed_of_inUses (inUses_block b)
      counted := by omega }
  refine ⟨tr, htells, hend, fun s items i j hlist hspan => ?_⟩
  obtain ⟨base, target, hlaid, hstack, hholds, htarget⟩ :=
    Statement.list_stored hspotless hlist hspan
  refine ⟨base, target, hlaid, hstack, hholds, htarget, fun hcapacity => ⟨?_, ?_⟩⟩
  · have hlow := Nat.lt_of_lt_of_le (hlaid.lt hspotless (Statement.length_list?_pos hlist))
      (Nat.le_trans (c.validate_eq_ok_iff.1 hc).2 hcapacity)
    exact Operand.word_eq_self (by
      unfold Operand.maxWord
      omega)
  · intro x index asValue n m haccess k _
    have hscan : o.scan = Lexical.scan c.keywords (c.preamble source) := scan_of_parse ho
    have hspelled : Mark.Spelled (blockMarks b) o.scan.tokens := hs
    have hr : tr.Resolved (c.preamble source) g.memory.program :=
      { toMeaningful := hspotless.toMeaningful
        capacity := hcapacity
        numbers := signed64?_of_spelled (hscan ▸ hspelled) }
    have hfound := locates hspotless hr base k haccess
    push_cast
    exact hfound

/-- A list of a call, a power and an element of another list. The call makes a list of its own, and so
does the assignment that follows; the second item is where an access looks for it. -/
theorem lists_of_calls :
    let source := "def f ( a ) : y = [ a , 1 ] ; return y [ 0 ] ; ; def main ( ) : x = [ f ( 2 ) , 2 ** 3 , x [ 0 ] ] ; x [ 1 ] = [ x [ 2 ] ] ; print ( x [ 1 ] ) ; ;"
    let items : List Expr := [.call "f" [.number "2"], .power (.number "2") (.number "3"),
      .element "x" (.number "0")]
    ∃ (r : Compilation) (memory : Memory) (b : Block)
      (tr : Trace (.reserving Config.standard.keywords) (blockMarks b)) (base cell : Nat),
      compile .standard source = .ok r ∧ r.code = some memory.listing ∧ tr.Tells source ∧
        LaidOut tr memory.program items 46 79 base ∧
        (tr.state 80).readCell? "x" = some cell ∧
        Holds memory.program (tr.slots 79) (.assign (.immediate base) (.direct cell)) ∧
        Locates tr memory.program "x" true 106 113 base 1 ↑(base + 1 * Config.standard.unit) := by
  intro source items
  let text : Block := [
    .define "f" ["a"] [.assign "y" (.list (.name "a") [.number "1"]),
      .returnValue (.element "y" (.number "0"))],
    .define "main" [] [.assign "x" (.list (.call "f" [.number "2"])
        [.power (.number "2") (.number "3"), .element "x" (.number "0")]),
      .assignElement "x" (.number "1") (.list (.element "x" (.number "2")) []),
      .print (.element "x" (.number "1"))]]
  have hrun : (compile .standard source).toOption.map (fun r => (r.hasErrors,
      decide (Mark.Spelled (blockMarks text) r.tokens))) = some (false, true) := by
    rw [compile_eq, Grammar.table_eq_ok]
    decide +kernel
  have hgraded : ∀ s ∈ text, s.Graded := by decide
  have hlist : Span (blockMarks text) 46 80
      (Statement.assign "x" (.list (.call "f" [.number "2"])
        [.power (.number "2") (.number "3"), .element "x" (.number "0")])).marks := by
    simp [text, blockMarks, Statement.marks, Expr.marks, Assigned.marks, rowMarks, restMarks,
      paramMarks, furtherParamMarks, Span]
  have haccess : Span (blockMarks text) 106 114 (accessMarks "x" (.number "1") true) := by
    simp [text, accessMarks, blockMarks, Statement.marks, Expr.marks, Assigned.marks, rowMarks,
      restMarks, paramMarks, furtherParamMarks, Span]
  cases ho : compile .standard source with
  | error e =>
    rw [ho] at hrun
    cases hrun
  | ok r =>
    rw [ho] at hrun
    simp only [Except.toOption, Option.map_some, Option.some.injEq, Prod.mk.injEq] at hrun
    obtain ⟨hclean, hspelled⟩ := hrun
    obtain ⟨o, g, -, -, hcode, -, hall⟩ := lists_of_compile .standard source ho hclean
      (by decide +kernel)
    obtain ⟨tr, htells, -, hlists⟩ := hall text hgraded (of_decide_eq_true hspelled)
    obtain ⟨base, target, hlaid, -, hholds, htarget, hfound⟩ := hlists _ items 46 79 rfl hlist
    obtain ⟨cell, hcell, hdirect⟩ := htarget _ _ rfl
    obtain ⟨hword, hlocates⟩ := hfound (by decide)
    rw [hword, hdirect] at hholds
    exact ⟨r, g.memory, text, tr, base, cell, rfl, hcode, htells, hlaid, hcell, hholds,
      hlocates "x" _ true 106 113 haccess 1 (by decide)⟩

end OnePass
