import OnePass.Proofs.Emission.Tables

/-!
# Branches and loops keep generation sound

A slot that is held for a condition or for the end of a branch lies on the stack until
it is taken up again and filled. The jumps out of a loop wait in its record, and the end
of the loop fills them all.

* `Sound.ends_holdSlot`, `Sound.ends_heldSlot`: a slot goes to the stack and comes back.
* `Sound.ends_settle`, `Sound.ends_settleAll`: slots are filled.
* `Sound.ends_startLoop`, `Sound.ends_endLoop`, `Sound.ends_leaveLoop`: loops.
-/

namespace OnePass.Emission

open Grammar (Item)
open Names Target

theorem Layered.mapDefinition {E : Setting} {bound next : Nat} {t : SymbolTable} {items : List Item}
    {st : OperandStack} {held : List Nat} {d : Definition} {defs : List Definition}
    {cur loops : Nat} {f : Definition → Definition}
    (hf : (f d).row = d.row ∧ (f d).aroundSlot = d.aroundSlot ∧ (f d).header = d.header)
    (h : Layered E bound next t items st held (d :: defs) cur loops) :
    Layered E bound next t items st held (f d :: defs) cur loops := by
  obtain ⟨hrow, hslot, hheader⟩ := hf
  generalize hds : d :: defs = ds at h
  induction h with
  | nil => cases hds
  | value ho _ ih => exact .value ho (ih hds)
  | target ho _ ih => exact .target ho (ih hds)
  | relation ho _ ih => exact .relation ho (ih hds)
  | condition ho hs _ ih => exact .condition ho hs (ih hds)
  | branch ho hs _ ih => exact .branch ho hs (ih hds)
  | otherwise hs _ ih => exact .otherwise hs (ih hds)
  | call hv hn _ ih => exact .call hv hn (ih hds)
  | loop hat _ ih => exact .loop hat (ih hds)
  | header hd hi hr hs hat h _ =>
    cases hds
    rw [← hslot]
    exact .header (hheader.trans hd) hi (hrow ▸ hr) hs (hrow ▸ hat) h
  | body hd hr hs hat h _ =>
    cases hds
    rw [← hslot]
    exact .body (hheader.trans hd) (hrow ▸ hr) hs (hrow ▸ hat) h

section Frame

variable {g : Generator}

theorem ends_heldSlot_memory : Ends heldSlot g fun _ g' => g'.memory = g.memory := by
  simp only [heldSlot, ends_bind, ends_modify, ends_pop, ends_pure, Generator.memory_pop]
  rfl

theorem programNext_filled (s : Nat) (i : Instruction) :
    (g.filled s i).programNext = g.programNext := by
  simp [Generator.programNext, Memory.programNext, Generator.filled]

/-- Settling a condition appends nothing. -/
theorem ends_settleCondition_size (distance : Nat) :
    Ends (settleCondition distance) g fun _ g' => g'.programNext = g.programNext ∧
      g'.memory.programSize = g.memory.programSize := by
  simp only [settleCondition, ends_bind, ends_pop, ends_get]
  refine ends_heldSlot_memory.mono fun slot g₁ h₁ => ?_
  have hpop := (Generator.memory_pop g₁).trans h₁
  have hnext : g₁.pop.2.programNext = g.programNext := by rw [Generator.programNext, hpop]; rfl
  cases slot with
  | none => exact (ends_pure ()).2 ⟨hnext, by rw [hpop]⟩
  | some s =>
    rw [ends_settle]
    split
    · exact ⟨(programNext_filled s _).trans hnext, by rw [Generator.filled, hpop]⟩
    · exact ⟨hnext, by rw [hpop]⟩

end Frame

namespace Sound

variable {E : Setting} {slack bound : Nat} {extra : List Nat} {away : Option Nat}
  {g : Generator} {items : List Item}

/-- Nothing depends on how many slots a definition holds, nor on its returns. -/
theorem mapDefinition (h : Sound E slack bound extra away g items) {f : Definition → Definition}
    (hf : ∀ d, (f d).row = d.row ∧ (f d).aroundSlot = d.aroundSlot ∧ (f d).header = d.header) :
    Sound E slack bound extra away (g.mapDefinition f) items := by
  obtain ⟨held, loops, record, h1, h2⟩ := h.layers
  refine { h with layers := ⟨held, loops, record, ?_, h2⟩ }
  unfold Generator.mapDefinition
  cases hd : g.definitions with
  | nil =>
    rw [hd] at h1
    exact h1
  | cons d defs =>
    rw [hd] at h1
    exact h1.mapDefinition (hf d)

section Slots

/-- A slot in the hands of an action is put on the stack behind a condition. -/
theorem holdBranch {s : Nat}
    (h : Sound E slack bound (s :: extra) away g (.condition :: items)) :
    Sound E slack bound extra away (g.push (.immediate (Operand.word s))) (.branch :: items) := by
  obtain ⟨held, loops, record, h1, h2, h3, h4⟩ := h.layers
  obtain ⟨o, st, hst, ho, hs, h1⟩ := h1.of_condition
  refine { h with layers := ⟨s :: held, loops, record, ?_, h2, h3, h4.perm ?_⟩ }
  · rw [Generator.push, hst]
    exact .branch ho hs h1
  · exact List.perm_middle.symm

theorem holdOtherwise {s : Nat} (h : Sound E slack bound (s :: extra) away g items)
    (hs : E.config.programSize < 2 ^ 63) :
    Sound E slack bound extra away (g.push (.immediate (Operand.word s))) (.otherwise :: items) := by
  obtain ⟨held, loops, record, h1, h2, h3, h4⟩ := h.layers
  refine { h with layers := ⟨s :: held, loops, record, .otherwise hs h1, h2, h3, h4.perm ?_⟩ }
  exact List.perm_middle.symm

theorem ends_holdBranch (h : Sound E (slack + 1) bound extra away g (.condition :: items)) :
    Ends holdSlot g fun _ g' => Sound E slack bound extra away g' (.branch :: items) := by
  simp only [holdSlot, ends_bind, ends_reserve, ends_push, ends_modify]
  intro hlt
  exact (h.reserve hlt).holdBranch.mapDefinition fun _ => ⟨rfl, rfl, rfl⟩

theorem ends_holdOtherwise (h : Sound E (slack + 1) bound extra away g items)
    (hs : E.config.programSize < 2 ^ 63) :
    Ends holdSlot g fun _ g' => Sound E slack bound extra away g' (.otherwise :: items) := by
  simp only [holdSlot, ends_bind, ends_reserve, ends_push, ends_modify]
  intro hlt
  exact ((h.reserve hlt).holdOtherwise hs).mapDefinition fun _ => ⟨rfl, rfl, rfl⟩

theorem index?_immediate {s : Nat} (hs : s < 2 ^ 63) :
    (Operand.immediate (Operand.word s)).index? = some s := by
  rw [Operand.index?, Operand.immediate]
  dsimp only
  rw [Operand.word_of_lt hs]
  simp

/-- A slot that lies on the stack is one of the program's. -/
theorem slot_lt {s : Nat} {slots : List Nat} (h : Sound E slack bound extra away g items)
    (hs : E.config.programSize < 2 ^ 63) (hh : Holes g.memory.program slots) (hmem : s ∈ slots) :
    s < 2 ^ 63 := by
  have h1 := hh.lt_size hmem
  have h2 := h.memory.size
  omega

/-- **A held slot comes back** from behind its condition. -/
theorem ends_heldBranch (h : Sound E slack bound extra away g (.branch :: items)) :
    Ends heldSlot g fun slot g' => ∃ s, slot = some s ∧ E.config.programSize < 2 ^ 63 ∧
      Sound E slack bound (s :: extra) away g' (.condition :: items) := by
  simp only [heldSlot, ends_bind, ends_modify, ends_pop, ends_pure]
  have hm := h.mapDefinition (f := fun d => { d with heldSlots := d.heldSlots - 1 })
    fun _ => ⟨rfl, rfl, rfl⟩
  obtain ⟨held, loops, record, h1, h2, h3, h4⟩ := hm.layers
  obtain ⟨s, o, st, held, hst, rfl, ho, hs, h1⟩ := h1.of_branch
  have hlt : s < 2 ^ 63 := hm.slot_lt hs h4 (by simp)
  rw [Generator.pop_eq hst]
  refine ⟨s, ?_, hs, { hm with layers := ⟨held, loops, record, .condition ho hs h1, h2, h3, ?_⟩ }⟩
  · exact (if_pos rfl).trans (index?_immediate hlt)
  · exact h4.perm List.perm_middle

theorem ends_heldOtherwise (h : Sound E slack bound extra away g (.otherwise :: items)) :
    Ends heldSlot g fun slot g' => ∃ s, slot = some s ∧ E.config.programSize < 2 ^ 63 ∧
      Sound E slack bound (s :: extra) away g' items := by
  simp only [heldSlot, ends_bind, ends_modify, ends_pop, ends_pure]
  have hm := h.mapDefinition (f := fun d => { d with heldSlots := d.heldSlots - 1 })
    fun _ => ⟨rfl, rfl, rfl⟩
  obtain ⟨held, loops, record, h1, h2, h3, h4⟩ := hm.layers
  obtain ⟨s, st, held, hst, rfl, hs, h1⟩ := h1.of_otherwise
  have hlt : s < 2 ^ 63 := hm.slot_lt hs h4 (by simp)
  rw [Generator.pop_eq hst]
  refine ⟨s, ?_, hs, { hm with layers := ⟨held, loops, record, h1, h2, h3, ?_⟩ }⟩
  · exact (if_pos rfl).trans (index?_immediate hlt)
  · exact h4.perm List.perm_middle

/-- **A slot is filled.** -/
theorem ends_settle {s : Nat} {i : Instruction}
    (h : Sound E slack bound (s :: extra) away g items)
    (hi : i.Closed (E.Cell g.memory.dataNext) (g.programNext + slack)) :
    Ends (settle (some s) i) g fun _ g' => g' = g.filled s i ∧
      Sound E slack bound extra away g' items := by
  rw [Emission.ends_settle, if_pos h.isReserved]
  exact ⟨rfl, h.filled hi⟩

/-- **Slots are filled one after another** with the same jump. -/
theorem ends_settleAll {i : Instruction} {slots : List Nat}
    (h : Sound E slack bound (slots ++ extra) away g items)
    (hi : i.Closed (E.Cell g.memory.dataNext) (g.programNext + slack)) :
    Ends (slots.forM fun s => settle (some s) i) g fun _ g' =>
      g'.programNext = g.programNext ∧ g'.memory.dataNext = g.memory.dataNext ∧
        g'.symbols = g.symbols ∧ Sound E slack bound extra away g' items := by
  induction slots generalizing g with
  | nil =>
    change Ends (pure ()) g _
    rw [ends_pure]
    exact ⟨rfl, rfl, rfl, h⟩
  | cons s slots ih =>
    change Ends (settle (some s) i >>= fun _ => slots.forM fun s => settle (some s) i) g _
    rw [ends_bind]
    refine (h.ends_settle hi).mono ?_
    rintro _ g₁ ⟨rfl, h₁⟩
    have hnext := programNext_filled (g := g) s i
    refine (ih h₁ (by rw [hnext]; exact hi)).mono ?_
    rintro _ g₂ ⟨h1, h2, h3, h4⟩
    exact ⟨h1.trans hnext, h2, h3, h4⟩

/-- **A condition gets its jump,** to a slot that is there or awaited. -/
theorem ends_settleCondition {distance : Nat} (hd : distance ≤ slack)
    (ht : g.programNext + distance < 2 ^ 63)
    (h : Sound E slack bound extra away g (.branch :: items)) :
    Ends (settleCondition distance) g fun _ g' => E.config.programSize < 2 ^ 63 ∧
      Sound E slack bound extra away g' items := by
  simp only [settleCondition, ends_bind, ends_pop, ends_get]
  intro slot g₁ h₁
  have hnext : g₁.programNext = g.programNext := by
    rw [Generator.programNext, ends_heldSlot_memory slot g₁ h₁]
    rfl
  obtain ⟨s, rfl, hs, h⟩ := h.ends_heldBranch slot g₁ h₁
  obtain ⟨ho, hmem, -, h⟩ := h.popCondition
  have hpop : g₁.pop.2.programNext = g₁.programNext := by
    rw [Generator.programNext, hmem]
    rfl
  rw [← hmem] at ho
  refine (h.ends_settle ?_).mono fun _ g₂ h₂ => ⟨hs, h₂.2⟩
  rw [hpop, hnext]
  exact Instruction.closed_jumpIfFalse ho (Nat.add_le_add_left hd _) ht

theorem ends_endIf (h : Sound E 0 bound extra away g (.branch :: items)) :
    Ends endIf g fun _ g' => Sound E 0 bound extra away g' items := by
  obtain ⟨held, loops, record, h1, -⟩ := h.layers
  obtain ⟨-, -, -, -, -, -, -, hs, -⟩ := h1.of_branch
  have hsize := h.memory.size
  refine (h.ends_settleCondition (Nat.le_refl 0) ?_).mono fun _ _ h' => h'.2
  exact Nat.lt_of_le_of_lt hsize hs

theorem ends_startElse (h : Sound E 0 bound extra away g (.branch :: items)) :
    Ends startElse g fun _ g' => Sound E 0 bound extra away g' (.otherwise :: items) := by
  simp only [startElse, ends_bind]
  obtain ⟨held, loops, record, h1, -⟩ := h.layers
  obtain ⟨-, -, -, -, -, -, -, hs, -⟩ := h1.of_branch
  have hsize := h.memory.programSize
  by_cases hlt : g.programNext < g.memory.programSize
  · have h' := (h.relax (Nat.zero_le 1)).ends_settleCondition (Nat.le_refl 1) (by omega)
    exact h'.mono fun _ g₁ h₁ => h₁.2.ends_holdOtherwise hs
  · -- the slot on has no room, so nothing is left to be shown
    refine (ends_settleCondition_size 1).mono fun _ g₁ h₁ => ?_
    simp only [holdSlot, ends_bind, ends_reserve]
    intro hlt'
    rw [h₁.1, h₁.2] at hlt'
    exact absurd hlt' hlt

theorem ends_endElse (h : Sound E 0 bound extra away g (.otherwise :: items)) :
    Ends endElse g fun _ g' => Sound E 0 bound extra away g' items := by
  simp only [endElse, ends_bind, ends_get]
  refine h.ends_heldOtherwise.mono ?_
  rintro _ g₁ ⟨s, rfl, hs, h₁⟩
  have hsize := h₁.memory.size
  refine (h₁.ends_settle ?_).mono fun _ _ h' => h'.2
  exact Instruction.closed_jump (Nat.le_refl _) (Nat.lt_of_le_of_lt hsize hs)

end Slots

section Loops

/-- The record that counts so many open loops is there, as the loop keyword is reserved. -/
theorem reserved_of_records {record : LoopRecord} {loops limit : Nat} {t : SymbolTable}
    (h : E.Records t record) (hb : Balanced record (loops + 1) limit) :
    E.config.keywords.contains loopKeyword = true ∧ t.loops? = some record := by
  unfold Setting.Records at h
  split at h
  · rename_i hk
    exact ⟨hk, h⟩
  · rw [h] at hb
    cases hb.starts

/-- **The record of the loops is found** on its row. -/
theorem ends_loopRecord {record : LoopRecord} (h : Sound E slack bound extra away g items)
    (hl : g.symbols.loops? = some record) :
    Ends loopRecord g fun x g' => x.2 = record ∧ ∃ t, g' = { g with symbols := t } ∧
      t.scopes = g.symbols.scopes ∧ (∀ i, t.name? i = g.symbols.name? i) ∧
      t.loopRow? = some x.1 ∧ t.loops? = some record ∧
      Tidy E g.memory.dataNext (g.programNext + slack) t := by
  simp only [loopRecord, ends_bind, ends_get]
  obtain ⟨row, hrow, hm⟩ := Option.bind_eq_some_iff.1 hl
  obtain ⟨m, hm, hr⟩ := Option.bind_eq_some_iff.1 hm
  have hrow' : g.symbols.latestIn Scopes.outermost loopKeyword false = some row := hrow
  rw [hrow']
  dsimp only
  rw [hm]
  rcases m with cell | info | loops
  · cases hr
    dsimp only
    simp only [ends_bind, ends_modify, ends_pure]
    refine ⟨trivial, g.symbols.setMeaning row (.loops .empty), rfl, rfl, fun i => ?_, ?_, ?_, ?_⟩
    · exact SymbolTable.name?_setMeaning
    · rw [SymbolTable.loopRow?_setMeaning h.table.rooted]
      exact hrow
    · exact SymbolTable.loops?_setLoops h.table.rooted hrow (by rw [hl]; rfl)
    · exact h.table.setMeaning trivial (by simp [Meaning.isFunction])
  · cases hr
  · cases hr
    dsimp only
    rw [ends_pure]
    exact ⟨rfl, g.symbols, rfl, rfl, fun _ => rfl, hrow, hl, h.table⟩

/-- **The loops change** on their row, and nothing else does. -/
theorem setLoops (record : LoopRecord) {t t' : SymbolTable} {row next limit : Nat}
    (hscopes : t'.scopes = t.scopes) (hnames : ∀ i, t'.name? i = t.name? i)
    (hrow : t'.loopRow? = some row) (hl : t'.loops?.isSome) (ht : Tidy E next limit t')
    (hk : E.config.keywords.contains loopKeyword = true) :
    Tidy E next limit (t'.setMeaning row (.loops record)) ∧
      E.Records (t'.setMeaning row (.loops record)) record ∧
      (∀ i, E.Safe t i → E.Safe (t'.setMeaning row (.loops record)) i) ∧
      (t'.setMeaning row (.loops record)).scopes = t.scopes := by
  refine ⟨ht.setMeaning trivial (by simp [Meaning.isFunction]), ?_, fun i hi hk => ?_, hscopes⟩
  · rw [Setting.Records, if_pos hk]
    exact SymbolTable.loops?_setLoops ht.rooted hrow hl
  · rw [SymbolTable.name?_setMeaning, hnames]
    exact hi hk

/-- **A loop is opened.** -/
theorem ends_startLoop (h : Sound E slack bound extra none g items)
    (hk : E.config.keywords.contains loopKeyword = true) :
    Ends startLoop g fun _ g' => Sound E slack bound extra none g' (.loop :: items) := by
  simp only [startLoop, ends_bind, ends_get, ends_modify]
  obtain ⟨held, loops, record, h1, h2, h3, h4⟩ := h.layers
  rw [Setting.Records, if_pos hk] at h3
  refine (h.ends_loopRecord h3).mono ?_
  rintro ⟨row, found⟩ g₁ ⟨hfound, t, rfl, hscopes, hnames, hrow, hl, ht⟩
  obtain rfl : found = record := hfound
  obtain ⟨ht', hr, hsafe, hscopes'⟩ := setLoops (found.enter g.programNext)
    hscopes hnames hrow (by rw [hl]; rfl) ht hk
  have hroot := ht'.rooted
  have hat := Scopes.at_enter (t.setMeaning row (.loops (found.enter g.programNext))).scopes .loop
    (t.setMeaning row (.loops (found.enter g.programNext))).rows.size
  have hcur : (t.setMeaning row (.loops (found.enter g.programNext))).scopes.current =
      g.currentScope := congrArg Scopes.current hscopes'
  rw [hcur] at hat
  refine ⟨h.memory, h.code, ⟨hroot.enter _ _, ht'.fits, ht'.functions⟩,
    fun row' h' => hsafe row' (h.last row' h'), held, loops + 1, found.enter g.programNext,
    .loop hat (h1.mono (Nat.le_refl _) (Nat.le_refl _) (fun s r p ha => ?_) hsafe),
    h2.enter (Nat.le_add_right _ _), ?_, h4⟩
  · rw [← hscopes'] at ha
    exact ha.enter _ _
  · rw [Setting.Records, if_pos hk] at hr ⊢
    rw [← hr]
    exact SymbolTable.loops?_enterScope hroot _

/-- **A jump out of the loop** waits in its record, if there is a loop. -/
theorem ends_leaveLoop {line : Nat} {outside : SemanticFault}
    {add : LoopRecord → Nat → LoopRecord}
    (hadd : ∀ record loops limit slot, Balanced record (loops + 1) limit →
      Balanced (add record slot) (loops + 1) limit)
    (hperm : ∀ record slot, (slot :: (record.breaks ++ record.continues)).Perm
      ((add record slot).breaks ++ (add record slot).continues))
    (h : Sound E 0 bound extra none g items) :
    Ends (leaveLoop line outside add) g fun _ g' => Sound E 0 bound extra none g' items := by
  simp only [leaveLoop, ends_bind, ends_get]
  split
  · rename_i hloop
    simp only [ends_bind, ends_reserve, ends_modify]
    intro hlt
    have h := (h.relax (Nat.zero_le 1)).reserve hlt
    obtain ⟨held, loops, record, h1, h2, h3, h4⟩ := h.layers
    have hpos := h1.loops_pos h.table.rooted hloop
    obtain ⟨loops, rfl⟩ : ∃ n, loops = n + 1 := ⟨loops - 1, by omega⟩
    obtain ⟨hk, hl⟩ := reserved_of_records h3 h2
    refine (h.ends_loopRecord hl).mono ?_
    rintro ⟨row, found⟩ g₁ ⟨hfound, t, rfl, hscopes, hnames, hrow, hl, ht⟩
    obtain rfl : found = record := hfound
    obtain ⟨ht', hr, hsafe, hscopes'⟩ := setLoops (add found g.programNext)
      hscopes hnames hrow (by rw [hl]; rfl) ht hk
    have hcur : (t.setMeaning row (.loops (add found g.programNext))).scopes.current =
        g.currentScope := congrArg Scopes.current hscopes'
    refine ⟨h.memory, h.code, ht', fun row' h' => hsafe row' (h.last row' h'), held, loops + 1,
      add found g.programNext, ?_, hadd _ _ _ _ h2, hr, h4.perm ?_⟩
    · change Layered E bound _ _ items _ held _ (t.setMeaning row _).scopes.current _
      rw [hcur]
      refine h1.mono (Nat.le_refl _) (Nat.le_refl _) (fun s r p ha => ?_) hsafe
      rw [← hscopes'] at ha
      exact ha
    · rw [List.cons_append]
      refine (List.perm_middle.symm).trans (List.Perm.append_left extra ?_)
      exact (List.perm_middle.symm).trans (List.Perm.append_left held (hperm _ _))
  · rw [ends_report]
    exact h.report line outside

/-- **A scope is left** for the one that is gone back to. -/
theorem leaveScope {outer : Nat} {region : Region}
    (h : Sound E slack bound extra (some outer) g items)
    (hat : g.symbols.scopes.At g.currentScope region (some outer)) :
    Sound E slack bound extra none g.leaveScope items := by
  have hroot := h.table.rooted
  obtain ⟨held, loops, record, h1, h2, h3, h4⟩ := h.layers
  have hcur : g.leaveScope.currentScope = outer := Scopes.current_leave hat _
  refine ⟨h.memory, h.code, ⟨hroot.leave _, h.table.fits, h.table.functions⟩, h.last, held, loops,
    record, ?_, h2, records_of_loops? (fun _ => SymbolTable.loops?_leaveScope hroot) record h3, h4⟩
  rw [Option.getD_none, hcur]
  exact h1.mono (Nat.le_refl _) (Nat.le_refl _) (fun _ _ _ ha => ha.leave _) fun _ hs => hs

/-- **The end of a loop** fills the condition's slot and all that waited in the record. -/
theorem ends_settleLoop {s : Nat} {condition : Operand} {closed : ClosedLoop}
    (h : Sound E 1 bound (s :: (closed.breaks ++ (closed.continues ++ extra))) away g items)
    (hc : condition.Reads (E.Cell g.memory.dataNext)) (hs : E.config.programSize < 2 ^ 63)
    (hstart : closed.start ≤ g.programNext + 1) :
    Ends (settleLoop (some s) condition closed) g fun _ g' => g'.symbols = g.symbols ∧
      Sound E 0 bound extra away g' items := by
  simp only [settleLoop, ends_bind, ends_get, Emission.ends_emit]
  intro hlt
  have hsize := h.memory.programSize
  have h := h.append (i := .jump closed.start) hlt (Instruction.closed_jump hstart (by omega))
  have hnext : (g.append (some (.jump closed.start))).programNext = g.programNext + 1 :=
    Array.size_push _
  refine (h.ends_settle (Instruction.closed_jumpIfFalse hc (Nat.le_refl _) (by omega))).mono ?_
  rintro _ g₁ ⟨rfl, h⟩
  have hjump : ∀ slot ≤ g.programNext + 1,
      (Instruction.jump slot).Closed (E.Cell g.memory.dataNext) (g.programNext + 1) :=
    fun slot hle => Instruction.closed_jump hle (by omega)
  refine (h.ends_settleAll ?_).mono ?_
  · rw [programNext_filled, hnext]
    exact hjump _ (Nat.le_refl _)
  rintro _ g₂ ⟨hn, hd, hsym, h⟩
  rw [programNext_filled, hnext] at hn
  refine (h.ends_settleAll ?_).mono ?_
  · rw [hn, hd]
    exact hjump _ hstart
  rintro _ g₃ ⟨-, -, hsym', h⟩
  exact ⟨hsym'.trans hsym, h⟩

/-- **A loop is closed.** -/
theorem ends_endLoop (h : Sound E 0 bound extra none g (.branch :: .loop :: items)) :
    Ends endLoop g fun _ g' => Sound E 0 bound extra none g' items := by
  simp only [endLoop, ends_bind, ends_pop]
  refine (h.relax (Nat.zero_le 1)).ends_heldBranch.mono ?_
  rintro _ g₁ ⟨s, rfl, hs, h⟩
  obtain ⟨hc, hmem, -, h⟩ := h.popCondition
  generalize g₁.pop.1 = condition at hc
  rw [← hmem] at hc
  generalize g₁.pop.2 = g₂ at h hc
  obtain ⟨held, loops, record, h1, h2, h3, h4⟩ := h.layers
  obtain ⟨outer, loops, rfl, hat, h1⟩ := h1.of_loop
  obtain ⟨hk, hl⟩ := reserved_of_records h3 h2
  obtain ⟨closed, rest, hleave, hrest, hstart, hbreaks, hcontinues⟩ := h2.leave
  refine (h.ends_loopRecord hl).mono ?_
  rintro ⟨row, found⟩ g₃ ⟨hfound, t, rfl, hscopes, hnames, hrow, hl, ht⟩
  obtain rfl : found = record := hfound
  obtain ⟨ht', hr, hsafe, hscopes'⟩ := setLoops rest hscopes hnames hrow (by rw [hl]; rfl) ht hk
  have h' : Sound E 1 bound (s :: (closed.breaks ++ (closed.continues ++ extra))) (some outer)
      { g₂ with symbols := t.setMeaning row (.loops rest) } items := by
    refine ⟨h.memory, h.code, ht', fun row' h' => hsafe row' (h.last row' h'), held, loops, rest,
      h1.mono (Nat.le_refl _) (Nat.le_refl _) (fun s r p ha => ?_) hsafe, hrest, hr, h4.perm ?_⟩
    · rw [← hscopes'] at ha
      exact ha
    · rw [hbreaks, hcontinues]
      simp only [List.cons_append, List.perm_cons, List.append_assoc]
      rw [List.perm_iff_count]
      intro a
      simp only [List.count_append]
      omega
  simp only [hleave, ends_bind, ends_modify]
  refine (h'.ends_settleLoop hc hs hstart).mono ?_
  rintro _ g₄ ⟨hsym, h⟩
  have hsym' : g₄.symbols.scopes = g₂.symbols.scopes := by
    rw [hsym]
    exact hscopes'
  have hat' : g₄.symbols.scopes.At g₄.currentScope .loop (some outer) := by
    rw [Generator.currentScope, SymbolTable.currentScope, hsym']
    exact hat
  exact h.leaveScope hat'

theorem ends_breakLoop (h : Sound E 0 bound extra none g items) (line : Nat) :
    Ends (breakLoop line) g fun _ g' => Sound E 0 bound extra none g' items := by
  refine h.ends_leaveLoop (fun _ _ _ _ hb => hb.addBreak _) fun record slot => ?_
  rw [LoopRecord.addBreak, List.append_assoc]
  exact List.perm_middle.symm

theorem ends_continueLoop (h : Sound E 0 bound extra none g items) (line : Nat) :
    Ends (continueLoop line) g fun _ g' => Sound E 0 bound extra none g' items := by
  refine h.ends_leaveLoop (fun _ _ _ _ hb => hb.addContinue _) fun record slot => ?_
  rw [LoopRecord.addContinue, ← List.append_assoc]
  exact (List.perm_append_singleton _ _).symm

end Loops

end Sound

end OnePass.Emission
