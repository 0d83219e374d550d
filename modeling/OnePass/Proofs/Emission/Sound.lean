import OnePass.Proofs.Emission.Ends
import OnePass.Proofs.Grammar.Shape
import OnePass.Proofs.Names.LoopRow
import OnePass.Proofs.Target.Closed

/-!
# Sound states of generation

A state is sound if its code is closed but for the slots that are held, and if what lies
on the stack, the open definitions and the open loops are just what the actions so far
have left. Then nothing is missing when an action asks for it.

* `Setting`: a configuration whose addresses are words.
* `Layered`: the stack, the definitions and the scopes, item by item.
* `Balanced`: the record of the loops, if so many are open.
* `Sound`: a sound state, with the slots that an action has in its hands.
-/

namespace OnePass.Emission

open Grammar (Item)
open Names Target

/-- **A configuration whose addresses are words,** with the temporaries that are ever handed out
under it. -/
structure Setting where
  config : Config
  unit_pos : 0 < config.unit
  zones : config.tempsFrom ≤ config.capacity
  small : config.capacity ≤ 2 ^ 63
  temp : Nat → Prop
  temp_lt : ∀ a, temp a → a < 2 ^ 63

namespace Setting

variable (E : Setting)

/-- The cells that code may mention while the next variable cell is at `next`. -/
def Cell (next a : Nat) : Prop := DataCell E.config next a ∨ E.temp a

/-- A row that is not the one of the loops. -/
def Safe (t : SymbolTable) (row : Nat) : Prop :=
  E.config.keywords.contains loopKeyword = true → t.name? row ≠ some loopKeyword

/-- The record of the loops, which is there if the loop keyword is reserved. -/
def Records (t : SymbolTable) (record : LoopRecord) : Prop :=
  if E.config.keywords.contains loopKeyword then t.loops? = some record else record = .empty

variable {E} {next next' a : Nat}

theorem Cell.mono (h : E.Cell next a) (hle : next ≤ next') : E.Cell next' a :=
  h.imp_left fun h => ⟨Nat.lt_of_lt_of_le h.1 hle, h.2⟩

theorem Cell.lt (h : E.Cell next a) (hn : next ≤ E.config.tempsFrom) : a < 2 ^ 63 := by
  rcases h with h | h
  · have h1 := h.1
    have h2 := E.zones
    have h3 := E.small
    omega
  · exact E.temp_lt a h

/-- Where a variable cell has room, slots are words. -/
theorem programSize_lt (h : DataCell E.config next a) (hn : next ≤ E.config.tempsFrom) :
    E.config.programSize < 2 ^ 63 := by
  obtain ⟨h1, k, h2⟩ := h
  have h3 := E.zones
  have h4 := E.small
  omega

end Setting

/-- **What the items stand for:** operands on the stack, held slots, definitions and scopes. -/
inductive Layered (E : Setting) (bound next : Nat) (t : SymbolTable) :
    List Item → OperandStack → List Nat → List Definition → Nat → Nat → Prop
  | nil : Layered E bound next t [] [] [] [] Scopes.outermost 0
  | value {o : Operand} {items st held defs cur loops} (ho : o.Reads (E.Cell next))
      (h : Layered E bound next t items st held defs cur loops) :
      Layered E bound next t (.value :: items) (o :: st) held defs cur loops
  | target {o : Operand} {items st held defs cur loops} (ho : o.Writes (E.Cell next))
      (h : Layered E bound next t items st held defs cur loops) :
      Layered E bound next t (.target :: items) (o :: st) held defs cur loops
  | relation {o : Operand} {items st held defs cur loops} (ho : o.mode = .immediate)
      (h : Layered E bound next t items st held defs cur loops) :
      Layered E bound next t (.relation :: items) (o :: st) held defs cur loops
  | condition {o : Operand} {items st held defs cur loops} (ho : o.Reads (E.Cell next))
      (hs : E.config.programSize < 2 ^ 63)
      (h : Layered E bound next t items st held defs cur loops) :
      Layered E bound next t (.condition :: items) (o :: st) held defs cur loops
  | branch {s : Nat} {o : Operand} {items st held defs cur loops} (ho : o.Reads (E.Cell next))
      (hs : E.config.programSize < 2 ^ 63)
      (h : Layered E bound next t items st held defs cur loops) :
      Layered E bound next t (.branch :: items) (.immediate (Operand.word s) :: o :: st)
        (s :: held) defs cur loops
  | otherwise {s : Nat} {items st held defs cur loops} (hs : E.config.programSize < 2 ^ 63)
      (h : Layered E bound next t items st held defs cur loops) :
      Layered E bound next t (.otherwise :: items) (.immediate (Operand.word s) :: st)
        (s :: held) defs cur loops
  | call {values : List Operand} {items st held defs cur loops}
      (hv : ∀ o ∈ values, o.Reads (E.Cell next)) (hn : values.length ≤ bound)
      (h : Layered E bound next t items st held defs cur loops) :
      Layered E bound next t (.call :: items) (.immediate values.length :: (values ++ st))
        held defs cur loops
  | loop {items st held defs cur outer loops} (hat : t.scopes.At cur .loop (some outer))
      (h : Layered E bound next t items st held defs outer loops) :
      Layered E bound next t (.loop :: items) st held defs cur (loops + 1)
  | header {d : Definition} {info : FunctionInfo} {items st held defs cur outer loops}
      (hd : d.header = some info) (hi : ∀ a ∈ info.cells, DataCell E.config next a)
      (hr : E.Safe t d.row) (hs : E.config.programSize < 2 ^ 63)
      (hat : t.scopes.At cur (.body d.row) (some outer))
      (h : Layered E bound next t items st held defs outer loops) :
      Layered E bound next t (.header :: items) st (d.aroundSlot :: held) (d :: defs) cur loops
  | body {d : Definition} {items st held defs cur outer loops} (hd : d.header = none)
      (hr : E.Safe t d.row) (hs : E.config.programSize < 2 ^ 63)
      (hat : t.scopes.At cur (.body d.row) (some outer))
      (h : Layered E bound next t items st held defs outer loops) :
      Layered E bound next t (.body :: items) st (d.aroundSlot :: held) (d :: defs) cur loops

section Layered

variable {E : Setting} {bound bound' next next' : Nat} {t t' : SymbolTable} {items : List Item}
  {st : OperandStack} {held : List Nat} {defs : List Definition} {cur loops : Nat}

theorem Layered.mono (h : Layered E bound next t items st held defs cur loops)
    (hb : bound ≤ bound') (hn : next ≤ next')
    (hat : ∀ s r p, t.scopes.At s r p → t'.scopes.At s r p)
    (hsafe : ∀ row, E.Safe t row → E.Safe t' row) :
    Layered E bound' next' t' items st held defs cur loops := by
  have hcell : ∀ a, E.Cell next a → E.Cell next' a := fun a ha => ha.mono hn
  induction h with
  | nil => exact .nil
  | value ho _ ih => exact .value (ho.mono hcell) ih
  | target ho _ ih => exact .target (ho.mono hcell) ih
  | relation ho _ ih => exact .relation ho ih
  | condition ho hs _ ih => exact .condition (ho.mono hcell) hs ih
  | branch ho hs _ ih => exact .branch (ho.mono hcell) hs ih
  | otherwise hs _ ih => exact .otherwise hs ih
  | call hv hl _ ih =>
    exact .call (fun o ho => (hv o ho).mono hcell) (Nat.le_trans hl hb) ih
  | loop ha _ ih => exact .loop (hat _ _ _ ha) ih
  | header hd hi hr hs ha _ ih =>
    exact .header hd (fun a h => ⟨Nat.lt_of_lt_of_le (hi a h).1 hn, (hi a h).2⟩) (hsafe _ hr) hs
      (hat _ _ _ ha) ih
  | body hd hr hs ha _ ih => exact .body hd (hsafe _ hr) hs (hat _ _ _ ha) ih

theorem Layered.of_value (h : Layered E bound next t (.value :: items) st held defs cur loops) :
    ∃ o st', st = o :: st' ∧ o.Reads (E.Cell next) ∧
      Layered E bound next t items st' held defs cur loops := by
  cases h with
  | value ho h => exact ⟨_, _, rfl, ho, h⟩

theorem Layered.of_target (h : Layered E bound next t (.target :: items) st held defs cur loops) :
    ∃ o st', st = o :: st' ∧ o.Writes (E.Cell next) ∧
      Layered E bound next t items st' held defs cur loops := by
  cases h with
  | target ho h => exact ⟨_, _, rfl, ho, h⟩

theorem Layered.of_relation
    (h : Layered E bound next t (.relation :: items) st held defs cur loops) :
    ∃ o st', st = o :: st' ∧ Layered E bound next t items st' held defs cur loops := by
  cases h with
  | relation _ h => exact ⟨_, _, rfl, h⟩

theorem Layered.of_condition
    (h : Layered E bound next t (.condition :: items) st held defs cur loops) :
    ∃ o st', st = o :: st' ∧ o.Reads (E.Cell next) ∧ E.config.programSize < 2 ^ 63 ∧
      Layered E bound next t items st' held defs cur loops := by
  cases h with
  | condition ho hs h => exact ⟨_, _, rfl, ho, hs, h⟩

theorem Layered.of_branch (h : Layered E bound next t (.branch :: items) st held defs cur loops) :
    ∃ s o st' held', st = .immediate (Operand.word s) :: o :: st' ∧ held = s :: held' ∧
      o.Reads (E.Cell next) ∧ E.config.programSize < 2 ^ 63 ∧
      Layered E bound next t items st' held' defs cur loops := by
  cases h with
  | branch ho hs h => exact ⟨_, _, _, _, rfl, rfl, ho, hs, h⟩

theorem Layered.of_otherwise
    (h : Layered E bound next t (.otherwise :: items) st held defs cur loops) :
    ∃ s st' held', st = .immediate (Operand.word s) :: st' ∧ held = s :: held' ∧
      E.config.programSize < 2 ^ 63 ∧ Layered E bound next t items st' held' defs cur loops := by
  cases h with
  | otherwise hs h => exact ⟨_, _, _, rfl, rfl, hs, h⟩

theorem Layered.of_call (h : Layered E bound next t (.call :: items) st held defs cur loops) :
    ∃ values st', st = .immediate values.length :: (values ++ st') ∧
      (∀ o ∈ values, o.Reads (E.Cell next)) ∧ values.length ≤ bound ∧
      Layered E bound next t items st' held defs cur loops := by
  cases h with
  | call hv hn h => exact ⟨_, _, rfl, hv, hn, h⟩

theorem Layered.of_loop (h : Layered E bound next t (.loop :: items) st held defs cur loops) :
    ∃ outer rest, loops = rest + 1 ∧ t.scopes.At cur .loop (some outer) ∧
      Layered E bound next t items st held defs outer rest := by
  cases h with
  | loop hat h => exact ⟨_, _, rfl, hat, h⟩

theorem Layered.of_header (h : Layered E bound next t (.header :: items) st held defs cur loops) :
    ∃ d defs' info outer held', defs = d :: defs' ∧ held = d.aroundSlot :: held' ∧
      d.header = some info ∧ (∀ a ∈ info.cells, DataCell E.config next a) ∧ E.Safe t d.row ∧
      E.config.programSize < 2 ^ 63 ∧ t.scopes.At cur (.body d.row) (some outer) ∧
      Layered E bound next t items st held' defs' outer loops := by
  cases h with
  | header hd hi hr hs hat h => exact ⟨_, _, _, _, _, rfl, rfl, hd, hi, hr, hs, hat, h⟩

theorem Layered.of_body (h : Layered E bound next t (.body :: items) st held defs cur loops) :
    ∃ d defs' outer held', defs = d :: defs' ∧ held = d.aroundSlot :: held' ∧ d.header = none ∧
      E.Safe t d.row ∧ E.config.programSize < 2 ^ 63 ∧
      t.scopes.At cur (.body d.row) (some outer) ∧
      Layered E bound next t items st held' defs' outer loops := by
  cases h with
  | body hd hr hs hat h => exact ⟨_, _, _, _, rfl, rfl, hd, hr, hs, hat, h⟩

/-- Nothing on the stack names a cell that was not handed out. -/
theorem Layered.reads (h : Layered E bound next t items st held defs cur loops) :
    ∀ o ∈ st, o.Reads (E.Cell next) := by
  induction h with
  | nil => exact fun _ ho => absurd ho List.not_mem_nil
  | value ho _ ih | condition ho _ _ ih => exact List.forall_mem_cons.2 ⟨ho, ih⟩
  | target ho _ ih => exact List.forall_mem_cons.2 ⟨ho.reads, ih⟩
  | relation ho _ ih => exact List.forall_mem_cons.2 ⟨fun hc => absurd ho hc, ih⟩
  | branch ho _ _ ih =>
    exact List.forall_mem_cons.2 ⟨Operand.reads_immediate _, List.forall_mem_cons.2 ⟨ho, ih⟩⟩
  | otherwise _ _ ih => exact List.forall_mem_cons.2 ⟨Operand.reads_immediate _, ih⟩
  | call hv _ _ ih =>
    refine List.forall_mem_cons.2 ⟨Operand.reads_immediate _, fun o ho => ?_⟩
    exact (List.mem_append.1 ho).elim (hv o) (ih o)
  | loop _ _ ih | header _ _ _ _ _ _ ih | body _ _ _ _ _ ih => exact ih

/-- Where the current scope is a loop, a loop is open. -/
theorem Layered.loops_pos (h : Layered E bound next t items st held defs cur loops)
    (hroot : t.scopes.Rooted) (hl : t.scopes.isLoop cur = true) : 0 < loops := by
  unfold Scopes.isLoop at hl
  induction h with
  | nil =>
    rw [hroot.at.region?] at hl
    cases hl
  | value _ _ ih | target _ _ ih | relation _ _ ih | condition _ _ _ ih | branch _ _ _ ih
  | otherwise _ _ ih | call _ _ _ ih => exact ih hl
  | loop _ _ _ => exact Nat.succ_pos _
  | header _ _ _ _ hat _ _ | body _ _ _ hat _ _ =>
    rw [hat.region?] at hl
    cases hl

end Layered

/-- **The record of so many open loops.** The outermost began when nothing waited. -/
structure Balanced (record : LoopRecord) (loops limit : Nat) : Prop where
  starts : record.starts.length = loops
  breakMarks : record.breakMarks.length = loops
  continueMarks : record.continueMarks.length = loops
  none : loops = 0 → record.breaks = [] ∧ record.continues = []
  firstBreak : ∀ n, record.breakMarks.getLast? = some n → n = 0
  firstContinue : ∀ n, record.continueMarks.getLast? = some n → n = 0
  within : ∀ s ∈ record.starts, s ≤ limit

namespace Balanced

variable {record outer : LoopRecord} {closed : ClosedLoop} {loops limit start slot : Nat}

theorem empty : Balanced .empty 0 limit :=
  ⟨rfl, rfl, rfl, fun _ => ⟨rfl, rfl⟩, by simp [LoopRecord.empty], by simp [LoopRecord.empty],
    by simp [LoopRecord.empty]⟩

theorem mono (h : Balanced record loops limit) {limit' : Nat} (hl : limit ≤ limit') :
    Balanced record loops limit' :=
  { h with within := fun s hs => Nat.le_trans (h.within s hs) hl }

theorem enter (h : Balanced record loops limit) (hs : start ≤ limit) :
    Balanced (record.enter start) (loops + 1) limit where
  starts := congrArg (· + 1) h.starts
  breakMarks := congrArg (· + 1) h.breakMarks
  continueMarks := congrArg (· + 1) h.continueMarks
  none := fun hc => absurd hc (Nat.succ_ne_zero _)
  firstBreak := by
    intro n hn
    cases loops with
    | zero =>
      have hmarks := List.eq_nil_of_length_eq_zero h.breakMarks
      simp [LoopRecord.enter, hmarks, (h.none rfl).1] at hn
      exact hn.symm
    | succ loops =>
      refine h.firstBreak n ?_
      obtain ⟨a, l, hl⟩ := List.exists_cons_of_length_eq_add_one h.breakMarks
      simpa [LoopRecord.enter, hl] using hn
  firstContinue := by
    intro n hn
    cases loops with
    | zero =>
      have hmarks := List.eq_nil_of_length_eq_zero h.continueMarks
      simp [LoopRecord.enter, hmarks, (h.none rfl).2] at hn
      exact hn.symm
    | succ loops =>
      refine h.firstContinue n ?_
      obtain ⟨a, l, hl⟩ := List.exists_cons_of_length_eq_add_one h.continueMarks
      simpa [LoopRecord.enter, hl] using hn
  within := List.forall_mem_cons.2 ⟨hs, h.within⟩

theorem addBreak (h : Balanced record (loops + 1) limit) (slot : Nat) :
    Balanced (record.addBreak slot) (loops + 1) limit :=
  { h with none := fun hc => absurd hc (Nat.succ_ne_zero _) }

theorem addContinue (h : Balanced record (loops + 1) limit) (slot : Nat) :
    Balanced (record.addContinue slot) (loops + 1) limit :=
  { h with none := fun hc => absurd hc (Nat.succ_ne_zero _) }

/-- What is left of a list of marks ends as the list did. -/
theorem getLast?_tail {n : Nat} (marks : List Nat) (h : marks.tail.getLast? = some n) :
    marks.getLast? = some n := by
  cases marks with
  | nil => exact h
  | cons a l =>
    cases l with
    | nil => cases h
    | cons b l => rwa [List.getLast?_cons_cons]

/-- **The innermost loop can be left,** and with the outermost the last waiting jump goes. -/
theorem leave (h : Balanced record (loops + 1) limit) : ∃ closed outer,
    record.leave? = some (closed, outer) ∧ Balanced outer loops limit ∧ closed.start ≤ limit ∧
      record.breaks = outer.breaks ++ closed.breaks ∧
      record.continues = outer.continues ++ closed.continues := by
  obtain ⟨start, starts, hstarts⟩ := List.exists_cons_of_length_eq_add_one h.starts
  obtain ⟨b, bs, hb⟩ := List.exists_cons_of_length_eq_add_one h.breakMarks
  obtain ⟨n, ns, hn⟩ := List.exists_cons_of_length_eq_add_one h.continueMarks
  have hfb := h.firstBreak
  have hfc := h.firstContinue
  have h1 := h.starts
  have h2 := h.breakMarks
  have h3 := h.continueMarks
  have h4 := h.within
  rw [hb] at hfb h2
  rw [hn] at hfc h3
  rw [hstarts] at h1 h4
  rw [List.length_cons, Nat.add_right_cancel_iff] at h1 h2 h3
  refine ⟨⟨start, record.breaks.drop b, record.continues.drop n⟩,
    ⟨record.breaks.take b, record.continues.take n, starts, bs, ns⟩, ?_,
    ⟨h1, h2, h3, fun hz => ?_, fun x hx => hfb x (getLast?_tail (b :: bs) hx),
      fun x hx => hfc x (getLast?_tail (n :: ns) hx),
      fun s hs => h4 s (List.mem_cons_of_mem _ hs)⟩,
    h4 start List.mem_cons_self, (List.take_append_drop _ _).symm,
    (List.take_append_drop _ _).symm⟩
  · simp [LoopRecord.leave?, hstarts, hb, hn]
  · subst hz
    obtain rfl := List.eq_nil_of_length_eq_zero h2
    obtain rfl := List.eq_nil_of_length_eq_zero h3
    obtain rfl := hfb b rfl
    obtain rfl := hfc n rfl
    exact ⟨rfl, rfl⟩

end Balanced

/-- What a meaning mentions is there: its cells, and the first slot of a function. -/
def Fits (E : Setting) (next limit : Nat) : Meaning → Prop
  | .variable cell => ∀ a, cell = some a → DataCell E.config next a
  | .function info => (∀ a ∈ info.cells, DataCell E.config next a) ∧ info.start ≤ limit
  | .loops _ => True

theorem Fits.mono {E : Setting} {next next' limit limit' : Nat} {m : Meaning}
    (h : Fits E next limit m) (hn : next ≤ next') (hl : limit ≤ limit') :
    Fits E next' limit' m := by
  have hcell : ∀ a, DataCell E.config next a → DataCell E.config next' a := fun a ha =>
    ⟨Nat.lt_of_lt_of_le ha.1 hn, ha.2⟩
  rcases m with cell | info | record
  · exact fun a ha => hcell a (h a ha)
  · exact ⟨fun a ha => hcell a (h.1 a ha), Nat.le_trans h.2 hl⟩
  · trivial

/-- **A symbol table whose rows mention only what is there.** -/
structure Tidy (E : Setting) (next limit : Nat) (t : SymbolTable) : Prop where
  rooted : t.scopes.Rooted
  fits : ∀ i m, t.meaning? i = some m → Fits E next limit m
  functions : ∀ i, (t.function? i).isSome → E.Safe t i

/-- **A sound state of generation:** these items are left, the slots in `extra` are in the hands of
an action, and `slack` more slots follow that code may jump to already. No call has more than
`bound` arguments yet. The items end at the current scope, or at the one that is gone back to. -/
structure Sound (E : Setting) (slack bound : Nat) (extra : List Nat) (away : Option Nat)
    (g : Generator) (items : List Item) : Prop where
  memory : g.memory.Regular E.config
  code : ∀ (s : Nat) (i : Instruction), g.memory.program[s]? = some (some i) →
    i.Closed (E.Cell g.memory.dataNext) (g.programNext + slack)
  table : Tidy E g.memory.dataNext (g.programNext + slack) g.symbols
  last : ∀ row, g.lastDefined = some row → E.Safe g.symbols row
  layers : ∃ held loops record,
    Layered E bound g.memory.dataNext g.symbols items g.stack held g.definitions
      (away.getD g.currentScope) loops ∧
    Balanced record loops (g.programNext + slack) ∧ E.Records g.symbols record ∧
    Holes g.memory.program (extra ++ (held ++ (record.breaks ++ record.continues)))

end OnePass.Emission
