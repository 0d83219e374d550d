import OnePass.Proofs.Emission.Functions

/-!
# Values keep generation sound

Operators leave their results in temporaries, and elements their addresses. Names stand
for variable cells, and a value is written to a place that was made for it.

* `Setting.Temps`: the temporaries that come next.
* `Sound.ends_readName`, `Sound.ends_assignTo`, `Sound.ends_bindGlobal`: names.
* `Sound.ends_element`, `Sound.ends_combine`, `Sound.ends_relate`, `Sound.ends_raise`: results.
* `Sound.ends_store`, `Sound.ends_storeItem`, `Sound.ends_printValue`: what becomes of them.
-/

namespace OnePass.Emission

open Grammar (Item)
open Names Target

/-- The next temporaries are among those that code may mention. -/
def Setting.Temps (E : Setting) (g : Generator) (count : Nat) : Prop :=
  ∀ k < count, E.temp (g.memory.tempNext + k * g.memory.unit)

theorem Setting.Temps.tail {E : Setting} {g : Generator} {count : Nat}
    (h : E.Temps g (count + 1)) : E.Temps g.withTemp count := by
  intro k hk
  have := h (k + 1) (by omega)
  rwa [Nat.add_mul, Nat.one_mul, Nat.add_comm (k * _), ← Nat.add_assoc] at this

namespace Sound

variable {E : Setting} {slack bound : Nat} {extra : List Nat} {away : Option Nat}
  {g : Generator} {items : List Item} {name : String} {line : Nat}

section Names

theorem dataCell_of_cell? (h : Sound E slack bound extra away g items) {row cell : Nat}
    (hc : g.symbols.cell? row = some cell) : DataCell E.config g.memory.dataNext cell := by
  obtain ⟨m, hm, hcell⟩ := Option.bind_eq_some_iff.1 hc
  have hfits := h.table.fits row m hm
  cases m with
  | «variable» c => exact hfits cell hcell
  | _ => cases hcell

theorem dataCell_of_readCell? (h : Sound E slack bound extra away g items) {cell : Nat}
    (hc : g.readCell? name = some cell) : DataCell E.config g.memory.dataNext cell := by
  obtain ⟨row, -, hcell⟩ := Option.bind_eq_some_iff.1 hc
  exact h.dataCell_of_cell? hcell

theorem dataCell_of_ownCell? (h : Sound E slack bound extra away g items) {cell : Nat}
    (hc : g.ownCell? name = some cell) : DataCell E.config g.memory.dataNext cell := by
  obtain ⟨s, -, hs⟩ := List.exists_of_findSome?_eq_some hc
  obtain ⟨row, -, hcell⟩ := Option.bind_eq_some_iff.1 hs
  exact h.dataCell_of_cell? hcell

/-- **A name is read** from a variable cell. -/
theorem ends_readName (h : Sound E slack bound extra away g items)
    (hn : E.config.keywords.contains loopKeyword = true → name ≠ loopKeyword) :
    Ends (readName name) g fun _ g' => Sound E slack bound extra away g' (.value :: items) := by
  simp only [readName, ends_bind, ends_get]
  cases hc : g.readCell? name with
  | some cell =>
    simp only [ends_push, ends_bind, ends_pure]
    have hcell : E.Cell g.memory.dataNext cell := .inl (h.dataCell_of_readCell? hc)
    exact h.pushValue (Operand.writes_direct hcell (h.cell_lt hcell)).reads
  | none =>
    simp only [ends_push, ends_bind]
    refine (h.ends_bindFresh hn).mono ?_
    rintro cell g' ⟨hcell, -, h⟩
    have hcell : E.Cell g'.memory.dataNext cell := .inl hcell
    exact h.pushValue (Operand.writes_direct hcell (h.cell_lt hcell)).reads

/-- **A name is assigned to** in a variable cell. -/
theorem ends_assignTo (h : Sound E slack bound extra away g items)
    (hn : E.config.keywords.contains loopKeyword = true → name ≠ loopKeyword) :
    Ends (assignTo name) g fun _ g' => Sound E slack bound extra away g' (.target :: items) := by
  simp only [assignTo, ends_bind, ends_get]
  cases hc : g.ownCell? name with
  | some cell =>
    simp only [ends_push, ends_bind, ends_pure]
    have hcell : E.Cell g.memory.dataNext cell := .inl (h.dataCell_of_ownCell? hc)
    exact h.pushTarget (Operand.writes_direct hcell (h.cell_lt hcell))
  | none =>
    simp only [ends_push, ends_bind]
    refine (h.ends_bindFresh hn).mono ?_
    rintro cell g' ⟨hcell, -, h⟩
    have hcell : E.Cell g'.memory.dataNext cell := .inl hcell
    exact h.pushTarget (Operand.writes_direct hcell (h.cell_lt hcell))

theorem ends_requireCell (h : Sound E slack bound extra away g items) :
    Ends (requireCell name line) g fun _ g' => Sound E slack bound extra away g' items := by
  simp only [requireCell, ends_bind, ends_get]
  split
  · exact ends_report.2 (h.report line _)
  · exact (ends_pure ()).2 h

/-- **A global name** shares the cell it has outside. -/
theorem ends_bindGlobal (h : Sound E slack bound extra away g items)
    (hn : E.config.keywords.contains loopKeyword = true → name ≠ loopKeyword) :
    Ends (bindGlobal name line) g fun _ g' => Sound E slack bound extra away g' items := by
  simp only [bindGlobal, ends_bind, ends_get]
  split
  · exact (ends_pure ()).2 h
  · split
    · exact ends_report.2 (h.report line _)
    · rename_i cell hc
      obtain ⟨row, -, hcell⟩ := Option.bind_eq_some_iff.1 hc
      have hdata := h.dataCell_of_cell? hcell
      simp only [ends_bind, ends_modifyGet, ends_modify]
      obtain ⟨hr, hmem, h⟩ := h.rowFor hn Meaning.isVariable
      refine h.setMeaning hr fun a ha => ?_
      obtain rfl := Option.some.inj ha
      rw [hmem]
      exact hdata

end Names

section Results

/-- **A temporary is handed out.** -/
theorem ends_freshTemp (h : Sound E slack bound extra away g items) {count : Nat}
    (ht : E.Temps g (count + 1)) :
    Ends freshTemp g fun cell g' => E.Cell g'.memory.dataNext cell ∧ cell < 2 ^ 63 ∧
      E.config.programSize < 2 ^ 63 ∧ g' = g.withTemp ∧ E.Temps g' count ∧
      Sound E slack bound extra away g' items := by
  rw [Emission.ends_freshTemp]
  intro hle
  have htemp : E.temp g.memory.tempNext := by simpa using ht 0 (Nat.succ_pos _)
  refine ⟨.inr htemp, E.temp_lt _ htemp, ?_, rfl, ht.tail, h.withTemp hle⟩
  obtain ⟨k, hk⟩ := h.memory.temps
  have h1 := h.memory.unit
  have h2 := h.memory.capacity
  have h3 := E.small
  have h4 := E.unit_pos
  have h5 : E.config.tempsFrom = E.config.programSize + E.config.dataSize := rfl
  omega

/-- **The result of an operation** is left in a temporary. -/
theorem ends_operate (h : Sound E 0 bound extra away g items) {op : Opcode} {left right : Operand}
    (hop : op = .add ∨ op = .sub ∨ op = .mult ∨ op = .eq ∨ op = .lt)
    (hl : left.Reads (E.Cell g.memory.dataNext)) (hr : right.Reads (E.Cell g.memory.dataNext))
    (ht : E.Temps g 1) :
    Ends (operate op left right) g fun _ g' => E.config.programSize < 2 ^ 63 ∧
      ∃ g₁ o, g' = g₁.push o ∧ o.Reads (E.Cell g₁.memory.dataNext) ∧
        Sound E 0 bound extra away g₁ items := by
  simp only [operate, ends_bind, ends_push]
  refine (h.ends_freshTemp ht).mono ?_
  rintro cell g₁ ⟨hcell, hlt, hs, rfl, -, h⟩
  have hw := Operand.writes_direct hcell hlt
  refine (h.ends_emit (Instruction.closed_binary hop hl hr hw)).mono ?_
  rintro _ g₂ ⟨rfl, h⟩
  exact ⟨hs, _, _, rfl, hw.reads, h⟩

theorem ends_combine (h : Sound E 0 bound extra away g (.value :: .value :: items)) {op : Opcode}
    (hop : op = .add ∨ op = .sub ∨ op = .mult ∨ op = .eq ∨ op = .lt) (ht : E.Temps g 1) :
    Ends (combine op line) g fun _ g' => Sound E 0 bound extra away g' (.value :: items) := by
  simp only [combine, ends_bind, ends_takeValue]
  obtain ⟨hr, hmem, h⟩ := h.takeValue line
  obtain ⟨hl, hmem', h⟩ := h.takeValue line
  rw [hmem] at hl
  rw [hmem] at hmem'
  refine (h.ends_operate hop (by rw [hmem']; exact hl) (by rw [hmem']; exact hr)
    (by rw [Setting.Temps, hmem']; exact ht)).mono ?_
  rintro _ g' ⟨-, g₁, o, rfl, ho, h⟩
  exact h.pushValue ho

theorem ends_relate (h : Sound E 0 bound extra away g (.value :: .relation :: .value :: items))
    (ht : E.Temps g 1) :
    Ends (relate line) g fun _ g' => Sound E 0 bound extra away g' (.condition :: items) := by
  simp only [relate, ends_bind, ends_takeValue, ends_pop]
  obtain ⟨hr, hmem, h⟩ := h.takeValue line
  obtain ⟨hmem', h⟩ := h.popRelation
  obtain ⟨hl, hmem'', h⟩ := h.takeValue line
  rw [hmem', hmem] at hl hmem''
  have hop : ∀ marker, relation marker = .eq ∨ relation marker = .lt := fun marker => by
    unfold relation
    split
    · exact .inl rfl
    · exact .inr rfl
  refine (h.ends_operate ?_ (by rw [hmem'']; exact hl) (by rw [hmem'']; exact hr)
    (by rw [Setting.Temps, hmem'']; exact ht)).mono ?_
  · exact .inr (.inr (.inr (hop _)))
  rintro _ g' ⟨hs, g₁, o, rfl, ho, h⟩
  exact h.pushCondition ho hs

/-- **The address of an element** is left in a temporary, which is read or written through. -/
theorem ends_element (h : Sound E 0 bound extra away g (.value :: .value :: items))
    (asValue : Bool) (ht : E.Temps g 2) :
    Ends (element line asValue) g fun _ g' =>
      Sound E 0 bound extra away g' ((if asValue then .value else .target) :: items) := by
  simp only [element, ends_bind, ends_takeValue, ends_get, ends_push]
  obtain ⟨hi, hmem, h⟩ := h.takeValue line
  obtain ⟨hb, hmem', h⟩ := h.takeValue line
  rw [hmem] at hb hmem'
  generalize (g.takeValue line).1 = index at hi
  generalize ((g.takeValue line).2.takeValue line).1 = base at hb
  generalize ((g.takeValue line).2.takeValue line).2 = g₁ at hmem' h
  rw [← hmem'] at hi hb
  rw [Setting.Temps, ← hmem'] at ht
  refine (h.ends_freshTemp ht).mono ?_
  rintro offset g₂ ⟨ho, holt, -, rfl, ht, h⟩
  have hw := Operand.writes_direct ho holt
  refine (h.ends_emit (Instruction.closed_binary (.inr (.inr (.inl rfl))) hi
    (Operand.reads_immediate _) hw)).mono ?_
  rintro _ g₃ ⟨rfl, h⟩
  refine (h.ends_freshTemp ht).mono ?_
  rintro address g₄ ⟨ha, halt, -, rfl, -, h⟩
  have hw' := Operand.writes_direct ha halt
  refine (h.ends_emit (Instruction.closed_binary (.inl rfl) hb hw.reads hw')).mono ?_
  rintro _ g₅ ⟨rfl, h⟩
  cases asValue with
  | true => exact h.pushValue (Operand.writes_indirect ha halt).reads
  | false => exact h.pushTarget hw'

/-- The code of a power is closed: its loop jumps back to its test and out behind itself. -/
theorem closed_powerCode {cell : Nat → Prop} {base exponent : Operand}
    {result counter running limit : Nat} (first : Nat) (hb : base.Reads cell) (he : exponent.Reads cell)
    (hr : (Operand.direct result).Writes cell) (hc : (Operand.direct counter).Writes cell)
    (hn : (Operand.direct running).Writes cell) (hl : first + 7 ≤ limit) (hlt : limit < 2 ^ 63) :
    ∀ i ∈ powerCode base exponent result counter running first, i.Closed cell limit := by
  simp only [powerCode, List.forall_mem_cons, List.not_mem_nil, false_implies, implies_true,
    and_true]
  exact ⟨Instruction.closed_assign (Operand.reads_immediate 1) hr,
    Instruction.closed_assign (Operand.reads_immediate 0) hc,
    Instruction.closed_binary (.inr (.inr (.inr (.inr rfl)))) hc.reads he hn,
    Instruction.closed_jumpIfFalse hn.reads (by omega) (by omega),
    Instruction.closed_binary (.inr (.inr (.inl rfl))) hr.reads hb hr,
    Instruction.closed_binary (.inl rfl) hc.reads (Operand.reads_immediate 1) hc,
    Instruction.closed_jump (by omega) (by omega)⟩

theorem ends_raise (h : Sound E 0 bound extra away g (.value :: .value :: items))
    (ht : E.Temps g 3) :
    Ends (raise line) g fun _ g' => Sound E 0 bound extra away g' (.value :: items) := by
  obtain ⟨he, hmem, h⟩ := h.takeValue line
  rcases h₁ : g.takeValue line with ⟨exponent, g₀⟩
  rw [h₁] at he hmem h
  obtain ⟨hb, hmem', h⟩ := h.takeValue line
  rcases h₂ : g₀.takeValue line with ⟨base, g₁⟩
  rw [h₂] at hb hmem' h
  dsimp only at he hmem hb hmem' h
  refine Emission.ends_raise h₁ h₂ fun hcapacity hroom => ?_
  rw [← hmem] at he
  rw [← hmem'] at he hb
  rw [Setting.Temps, ← hmem, ← hmem'] at ht
  have hle : g₁.memory.tempNext + g₁.memory.unit ≤ g₁.memory.capacity := by omega
  have hle' : g₁.memory.tempNext + g₁.memory.unit + g₁.memory.unit ≤ g₁.memory.capacity := by omega
  obtain ⟨hr, hrlt, hs, -, ht, h⟩ := Emission.ends_freshTemp.1 (h.ends_freshTemp ht) hle
  obtain ⟨hc, hclt, -, -, ht, h⟩ := Emission.ends_freshTemp.1 (h.ends_freshTemp ht) hle'
  obtain ⟨hn, hnlt, -, -, -, h⟩ := Emission.ends_freshTemp.1 (h.ends_freshTemp ht)
    (by simp only [Generator.tempNext_withTemp, Generator.unit_withTemp,
      Generator.capacity_withTemp]; omega)
  have hsize := h.memory.programSize
  have hcode := closed_powerCode g₁.programNext hb he (Operand.writes_direct hr hrlt)
    (Operand.writes_direct hc hclt) (Operand.writes_direct hn hnlt) (Nat.le_refl _)
    (by rw [← hsize] at hs; exact Nat.lt_of_le_of_lt hroom hs)
  have h7 : Sound E (0 + 7) bound extra away g₁.withTemp.withTemp.withTemp items :=
    h.relax (Nat.zero_le 7)
  have hdone : Sound E 0 bound extra away (g₁.withTemp.withTemp.withTemp.appendAll
      (powerCode base exponent g₁.memory.tempNext g₁.withTemp.memory.tempNext
        g₁.withTemp.withTemp.memory.tempNext g₁.programNext)) items := h7.appendAll hroom hcode
  refine ((hdone.dropTemp _).dropTemp _).pushValue ?_
  simp only [Generator.dataNext_dropTemp, Generator.dataNext_appendAll,
    Generator.dataNext_withTemp]
  exact (Operand.writes_direct hr hrlt).reads

/-- A pointer is written through, and is still a place to write to. -/
theorem writes_writtenThrough {cell : Nat → Prop} {target : Operand} (m : Memory)
    (h : target.Writes cell) : (writtenThrough m target).Writes cell := by
  unfold writtenThrough
  split
  · exact ⟨by simp, h.2⟩
  · exact h

/-- **A value is stored** in the place that was left for it. -/
theorem ends_store (h : Sound E 0 bound extra away g (.value :: .target :: items)) :
    Ends (store line) g fun _ g' => Sound E 0 bound extra away g' items := by
  simp only [store, ends_bind, ends_takeValue, ends_pop, ends_get]
  obtain ⟨hv, hmem, h⟩ := h.takeValue line
  obtain ⟨ht, hmem', h⟩ := h.popTarget
  rw [hmem] at ht hmem'
  rw [← hmem'] at hv ht
  exact (h.ends_emit (Instruction.closed_assign hv (writes_writtenThrough _ ht))).mono
    fun _ _ h' => h'.2

theorem ends_printValue (h : Sound E 0 bound extra away g (.value :: items)) :
    Ends (printValue line) g fun _ g' => Sound E 0 bound extra away g' items := by
  simp only [printValue, ends_bind, ends_takeValue]
  obtain ⟨hv, hmem, h⟩ := h.takeValue line
  rw [← hmem] at hv
  exact (h.ends_emit (Instruction.closed_print hv)).mono fun _ _ h' => h'.2

/-- **An item of a list** is stored in the next cell in line. -/
theorem ends_storeItem (h : Sound E 0 bound extra away g (.value :: items)) :
    Ends (storeItem line) g fun _ g' => Sound E 0 bound extra away g' items := by
  simp only [storeItem, ends_bind, ends_takeValue, ends_onMemory]
  obtain ⟨hv, hmem, h⟩ := h.takeValue line
  rw [← hmem] at hv
  intro cell m hm
  obtain ⟨h1, h2, h3, h4⟩ := Memory.takeNextCell_spec h.memory E.unit_pos hm
  replace h := h.withData h2 h3 (by rw [h4])
  have hcell : E.Cell m.dataNext cell := .inl h1
  refine (h.ends_emit (Instruction.closed_assign (hv.mono fun a ha => ha.mono h3)
    (Operand.writes_direct hcell (h.cell_lt hcell)))).mono fun _ _ h' => h'.2

end Results

end Sound

end OnePass.Emission
