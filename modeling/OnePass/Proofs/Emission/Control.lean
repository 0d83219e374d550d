import OnePass.Proofs.Emission.Operands

/-!
# What branches and loops do

A slot that is held lies on the stack. Once its target is known it is filled, and the
record of the loops says which slots the end of a loop fills. The states that these
actions leave are given in full.

* `settled`, `settledAll`: a program with reserved slots filled.
* `ends_holdSlot_eq`, `ends_settleCondition_eq`, `ends_endElse_eq`: branches.
* `Recorded`: a table with another record of the loops.
* `ends_startLoop_eq`, `ends_endLoop_eq`, `ends_leaveLoop_eq`: loops.
-/

namespace OnePass.Target

/-- Program slots, some of them still empty. -/
abbrev Program := Array (Option Instruction)

/-- **A program with a slot filled,** if it is reserved. -/
def settled (p : Program) (slot : Nat) (i : Instruction) : Program :=
  if p[slot]? = some none then p.setIfInBounds slot (some i) else p

/-- A program with slots filled one after another, those that are reserved. -/
def settledAll (p : Program) (slots : List Nat) (i : Instruction) : Program :=
  slots.foldl (fun p slot => settled p slot i) p

section Settled

variable (p : Program) (slot k : Nat) (slots : List Nat) (i : Instruction)

@[simp] theorem size_settled : (settled p slot i).size = p.size := by
  unfold settled
  split
  · exact Array.size_setIfInBounds
  · rfl

theorem getElem?_settled : (settled p slot i)[k]? =
    if k = slot ∧ p[k]? = some none then some (some i) else p[k]? := by
  unfold settled
  by_cases hk : k = slot
  · subst hk
    by_cases hnone : p[k]? = some none
    · have hlt := (Array.getElem?_eq_some_iff.1 hnone).1
      rw [if_pos hnone, if_pos ⟨rfl, hnone⟩, Array.getElem?_setIfInBounds_self_of_lt hlt]
    · rw [if_neg hnone, if_neg (not_and_of_not_right _ hnone)]
  · rw [if_neg (not_and_of_not_left _ hk)]
    split
    · rw [Array.getElem?_setIfInBounds_ne (Ne.symm hk)]
    · rfl

@[simp] theorem size_settledAll : (settledAll p slots i).size = p.size := by
  unfold settledAll
  induction slots generalizing p with
  | nil => rfl
  | cons s slots ih => rw [List.foldl_cons, ih, size_settled]

theorem getElem?_settledAll : (settledAll p slots i)[k]? =
    if k ∈ slots ∧ p[k]? = some none then some (some i) else p[k]? := by
  unfold settledAll
  induction slots generalizing p with
  | nil => simp
  | cons s slots ih =>
    rw [List.foldl_cons, ih, getElem?_settled]
    by_cases hs : k = s
    · by_cases hnone : p[k]? = some none
      · simp [hs, hs ▸ hnone]
      · simp [hnone]
    · simp [hs]

end Settled

end OnePass.Target

namespace OnePass.Names

theorem Meaning.function?_of_asLoops? {m : Meaning} {record : LoopRecord}
    (h : m.asLoops? = some record) : m.function? = none := by
  rcases m with cell | info | loops
  · rfl
  · cases h
  · rfl

namespace SymbolTable

variable {t t' t'' : SymbolTable} {row i : Nat} {m : Meaning} {record record' : LoopRecord}

/-- A row that stands for no function may be given another meaning that is none. -/
theorem function?_setMeaning (h : t.function? row = none) (hm : m.function? = none) :
    (t.setMeaning row m).function? i = t.function? i := by
  rw [function?, meaning?_setMeaning, function?]
  split
  · rename_i hi
    subst hi
    rw [function?] at h
    cases hrow : t.meaning? row with
    | none => rfl
    | some m' =>
      rw [hrow] at h
      exact hm.trans h.symm
  · rfl

/-- **A table with another record of the loops,** and nothing else changed. -/
structure Recorded (t t' : SymbolTable) (record : LoopRecord) : Prop where
  scopes : t'.scopes = t.scopes
  places : ∀ i, t'.scope? i = t.scope? i
  names : ∀ i, t'.name? i = t.name? i
  functions : ∀ i, t'.function? i = t.function? i
  loops : t'.loops? = some record

theorem Recorded.trans (h : Recorded t t' record) (h' : Recorded t' t'' record') :
    Recorded t t'' record' :=
  ⟨h'.scopes.trans h.scopes, fun i => (h'.places i).trans (h.places i), fun i => (h'.names i).trans (h.names i),
    fun i => (h'.functions i).trans (h.functions i), h'.loops⟩

/-- The record is changed on its row. -/
theorem recorded_setLoops (hroot : t.scopes.Rooted) (hrow : t.loopRow? = some row)
    (hl : t.loops?.isSome) : Recorded t (t.setMeaning row (.loops record)) record where
  scopes := rfl
  places _ := scope?_setMeaning
  names _ := name?_setMeaning
  functions i := by
    refine function?_setMeaning ?_ rfl
    rw [loops?, hrow, Option.bind_some] at hl
    obtain ⟨r, hr⟩ := Option.isSome_iff_exists.1 hl
    obtain ⟨m, hm, hasLoops⟩ := Option.bind_eq_some_iff.1 hr
    rw [function?, hm, Option.bind_some, Meaning.function?_of_asLoops? hasLoops]
  loops := loops?_setLoops hroot hrow hl

theorem Recorded.again (h : Recorded t t' record) (hroot : t.scopes.Rooted)
    (hrow : t'.loopRow? = some row) : Recorded t (t'.setMeaning row (.loops record')) record' := by
  refine h.trans (recorded_setLoops ?_ hrow (by rw [h.loops]; rfl))
  rw [h.scopes]
  exact hroot

end SymbolTable

end OnePass.Names

namespace OnePass.Emission

open Names Target

/-- The generator with another program. -/
def Generator.withProgram (g : Generator) (p : Program) : Generator :=
  { g with memory := { g.memory with program := p } }

/-- The definition holds one slot more. -/
def Definition.hold (d : Definition) : Definition := { d with heldSlots := d.heldSlots + 1 }

/-- The definition holds one slot less. -/
def Definition.release (d : Definition) : Definition := { d with heldSlots := d.heldSlots - 1 }

/-- The generator that holds one slot more, which lies on the stack. -/
def Generator.held (g : Generator) : Generator :=
  ((g.append none).push (.immediate (Operand.word g.programNext))).mapDefinition Definition.hold

/-- The generator that has taken a slot back, with this stack left. -/
def Generator.freed (g : Generator) (st : OperandStack) : Generator :=
  { g with stack := st }.mapDefinition Definition.release

variable {g : Generator} {st : OperandStack} {s line distance : Nat} {o c : Operand}
  {record outer : LoopRecord} {closed : ClosedLoop}

theorem ends_settle_eq {i : Instruction} {Q : Unit → Generator → Prop} :
    Ends (settle (some s) i) g Q ↔ Q () (g.withProgram (settled g.memory.program s i)) := by
  rw [ends_settle]
  unfold Memory.isReserved settled
  by_cases h : g.memory.program[s]? = some none
  · rw [if_pos (beq_iff_eq.2 h), if_pos h]
    rfl
  · rw [if_neg fun hc => h (beq_iff_eq.1 hc), if_neg h]
    rfl

theorem ends_settleAll_eq {i : Instruction} {slots : List Nat} {Q : Unit → Generator → Prop} :
    Ends (slots.forM fun s => settle (some s) i) g Q ↔
      Q () (g.withProgram (settledAll g.memory.program slots i)) := by
  induction slots generalizing g with
  | nil =>
    change Ends (pure ()) g Q ↔ _
    exact ends_pure ()
  | cons s slots ih =>
    change Ends (settle (some s) i >>= fun _ => slots.forM fun s => settle (some s) i) g Q ↔ _
    rw [ends_bind, ends_settle_eq, ih]
    rfl

section Branches

theorem ends_holdSlot_eq : Ends holdSlot g fun _ g' => g' = g.held := by
  simp only [holdSlot, ends_bind, ends_reserve, ends_push, ends_modify]
  exact fun _ => rfl

/-- A held slot is taken from the stack. -/
theorem ends_heldSlot_eq (h : g.stack = .immediate (Operand.word s) :: st) (hs : s < 2 ^ 63) :
    Ends heldSlot g fun slot g' => slot = some s ∧ g' = g.freed st := by
  simp only [heldSlot, ends_bind, ends_modify, ends_pop, ends_pure]
  have hpop : (g.mapDefinition fun f => { f with heldSlots := f.heldSlots - 1 }).pop =
      (.immediate (Operand.word s), g.freed st) := Generator.pop_eq h
  rw [hpop]
  exact ⟨(if_pos rfl).trans (Sound.index?_immediate hs), rfl⟩

/-- **A condition's slot is filled** with the jump that is taken if the condition is zero. -/
theorem ends_settleCondition_eq (h : g.stack = .immediate (Operand.word s) :: c :: st)
    (hs : s < 2 ^ 63) : Ends (settleCondition distance) g fun _ g' =>
      g' = (g.freed st).withProgram
        (settled g.memory.program s (.jumpIfFalse c (g.programNext + distance))) := by
  simp only [settleCondition, ends_bind, ends_pop, ends_get]
  refine (ends_heldSlot_eq h hs).mono ?_
  rintro _ g₁ ⟨rfl, rfl⟩
  have hpop : (g.freed (c :: st)).pop = (c, g.freed st) := Generator.pop_eq rfl
  rw [hpop, ends_settle_eq]
  rfl

/-- **Between two branches** the condition's slot is filled, and one more is held. -/
theorem ends_startElse_eq (h : g.stack = .immediate (Operand.word s) :: c :: st)
    (hs : s < 2 ^ 63) : Ends startElse g fun _ g' =>
      g' = ((g.freed st).withProgram
        (settled g.memory.program s (.jumpIfFalse c (g.programNext + 1)))).held := by
  simp only [startElse, ends_bind]
  refine (ends_settleCondition_eq h hs).mono ?_
  rintro _ g₁ rfl
  exact ends_holdSlot_eq

/-- **Behind the second branch** the slot at the end of the first is filled. -/
theorem ends_endElse_eq (h : g.stack = .immediate (Operand.word s) :: st) (hs : s < 2 ^ 63) :
    Ends endElse g fun _ g' =>
      g' = (g.freed st).withProgram (settled g.memory.program s (.jump g.programNext)) := by
  simp only [endElse, ends_bind, ends_get]
  refine (ends_heldSlot_eq h hs).mono ?_
  rintro _ g₁ ⟨rfl, rfl⟩
  exact ends_settle_eq.2 rfl

end Branches

section Loops

/-- **The record of the loops is found** on its row. -/
theorem ends_loopRecord_eq (hroot : g.symbols.scopes.Rooted)
    (hl : g.symbols.loops? = some record) : Ends loopRecord g fun x g' => x.2 = record ∧
      ∃ t, g' = { g with symbols := t } ∧ t.loopRow? = some x.1 ∧ g.symbols.Recorded t record := by
  simp only [loopRecord, ends_bind, ends_get]
  obtain ⟨row, hrow, hm⟩ := Option.bind_eq_some_iff.1 hl
  obtain ⟨m, hm, hr⟩ := Option.bind_eq_some_iff.1 hm
  have hrow' : g.symbols.latestIn Scopes.outermost loopKeyword false = some row := hrow
  rw [hrow']
  dsimp only
  rw [hm]
  rcases m with cell | info | loops
  · -- the first loop makes the record
    cases hr
    dsimp only
    simp only [ends_bind, ends_modify, ends_pure]
    refine ⟨trivial, g.symbols.setMeaning row (.loops .empty), rfl, ?_, ?_⟩
    · exact (SymbolTable.loopRow?_setMeaning hroot).trans hrow
    · exact SymbolTable.recorded_setLoops hroot hrow (by rw [hl]; rfl)
  · cases hr
  · cases hr
    dsimp only
    rw [ends_pure]
    exact ⟨rfl, g.symbols, rfl, hrow, rfl, fun _ => rfl, fun _ => rfl, fun _ => rfl, hl⟩

/-- **A loop is opened** where its condition will begin. -/
theorem ends_startLoop_eq (hroot : g.symbols.scopes.Rooted) (hl : g.symbols.loops? = some record) :
    Ends startLoop g fun _ g' => ∃ t, g' = { g with symbols := t.enterScope .loop } ∧
      g.symbols.Recorded t (record.enter g.programNext) := by
  simp only [startLoop, ends_bind, ends_get, ends_modify]
  refine (ends_loopRecord_eq hroot hl).mono ?_
  rintro ⟨row, found⟩ g₁ ⟨hfound, t, rfl, hrow, ht⟩
  obtain rfl : found = record := hfound
  exact ⟨_, rfl, ht.again hroot hrow⟩

/-- **A jump out of a loop** waits in the record. -/
theorem ends_leaveLoop_eq {outside : SemanticFault} {add : LoopRecord → Nat → LoopRecord}
    (hroot : g.symbols.scopes.Rooted) (hl : g.symbols.loops? = some record)
    (hin : g.symbols.scopes.isLoop g.currentScope = true) :
    Ends (leaveLoop line outside add) g fun _ g' =>
      ∃ t, g' = { g.append none with symbols := t } ∧
        g.symbols.Recorded t (add record g.programNext) := by
  simp only [leaveLoop, ends_bind, ends_get]
  rw [if_pos hin]
  simp only [ends_bind, ends_reserve, ends_modify]
  intro _
  refine (ends_loopRecord_eq (g := g.append none) hroot hl).mono ?_
  rintro ⟨row, found⟩ g₁ ⟨hfound, t, rfl, hrow, ht⟩
  obtain rfl : found = record := hfound
  exact ⟨_, rfl, ht.again hroot hrow⟩

/-- **A jump out of no loop** is an error, and takes no slot. -/
theorem ends_leaveLoop_stray {outside : SemanticFault} {add : LoopRecord → Nat → LoopRecord}
    (hin : g.symbols.scopes.isLoop g.currentScope = false) :
    Ends (leaveLoop line outside add) g fun _ g' => g' = g.report line outside := by
  simp only [leaveLoop, ends_bind, ends_get, hin, Bool.false_eq_true, if_false]
  exact ends_report.2 rfl

/-- A loop's program with its end: the jump back, and the slots filled that waited for it. -/
def closedLoop (p : Program) (s : Nat) (c : Operand) (closed : ClosedLoop) : Program :=
  let after := p.size + 1
  settledAll (settledAll (settled (p.push (some (.jump closed.start))) s (.jumpIfFalse c after))
    closed.breaks (.jump after)) closed.continues (.jump closed.start)

theorem ends_settleLoop_eq : Ends (settleLoop (some s) c closed) g fun _ g' =>
    g' = g.withProgram (closedLoop g.memory.program s c closed) := by
  simp only [settleLoop, ends_bind, ends_emit, ends_get, ends_settle_eq, ends_settleAll_eq]
  intro _
  have hnext := g.programNext_append (some (.jump closed.start))
  rw [hnext]
  rfl

/-- **A loop is closed:** it jumps back, and all that waited for its end is filled. -/
theorem ends_endLoop_eq (h : g.stack = .immediate (Operand.word s) :: c :: st) (hs : s < 2 ^ 63)
    (hroot : g.symbols.scopes.Rooted) (hl : g.symbols.loops? = some record)
    (hleave : record.leave? = some (closed, outer)) : Ends endLoop g fun _ g' =>
      ∃ t, g.symbols.Recorded t outer ∧
        g' = { (g.freed st).withProgram (closedLoop g.memory.program s c closed) with
          symbols := t.leaveScope } := by
  simp only [endLoop, ends_bind, ends_pop]
  refine (ends_heldSlot_eq h hs).mono ?_
  rintro _ g₁ ⟨rfl, rfl⟩
  have hpop : (g.freed (c :: st)).pop = (c, g.freed st) := Generator.pop_eq rfl
  rw [hpop]
  refine (ends_loopRecord_eq (g := g.freed st) hroot hl).mono ?_
  rintro ⟨row, found⟩ g₁ ⟨hfound, t, rfl, hrow, ht⟩
  obtain rfl : found = record := hfound
  simp only [hleave, ends_bind, ends_modify]
  refine ends_settleLoop_eq.mono ?_
  rintro _ g₂ rfl
  exact ⟨_, ht.again hroot hrow, rfl⟩

end Loops

end OnePass.Emission
