import OnePass.Proofs.Emission.Jumps

/-!
# Function definitions keep generation sound

A definition holds the slot of the jump around its body until it ends. Its cells are
variable cells, and the body returns through one of them.

* `Sound.ends_startFunction`, `Sound.ends_addParameter`, `Sound.ends_publish`: the header.
* `Sound.ends_returnWith`, `Sound.ends_returnNothing`: returns.
* `Sound.ends_endFunction`, `Sound.ends_retireRivals`: the end.
-/

namespace OnePass.Emission

open Grammar (Item)
open Names Target

/-- The rows of the open definitions are not the row of the loops. -/
theorem Layered.safe {E : Setting} {bound next : Nat} {t : SymbolTable} {items : List Item}
    {st : OperandStack} {held : List Nat} {defs : List Definition} {cur loops : Nat}
    (h : Layered E bound next t items st held defs cur loops) : ∀ d ∈ defs, E.Safe t d.row := by
  induction h with
  | nil => exact fun d hd => absurd hd List.not_mem_nil
  | value _ _ ih | target _ _ ih | relation _ _ ih | condition _ _ _ ih | branch _ _ _ ih
  | otherwise _ _ ih | call _ _ _ ih | loop _ _ ih => exact ih
  | header _ _ hr _ _ _ ih | body _ hr _ _ _ ih =>
    intro d hd
    rcases List.mem_cons.1 hd with rfl | hd
    · exact hr
    · exact ih d hd

theorem ends_functionOn {g : Generator} {row : Nat} : Ends (functionOn row) g fun info g' =>
    g' = g ∧ g.symbols.function? row = some info := by
  simp only [functionOn, ends_bind, ends_get]
  cases hf : g.symbols.function? row with
  | none => exact ends_defect
  | some info => exact (ends_pure info).2 ⟨rfl, rfl⟩

namespace Sound

variable {E : Setting} {slack bound : Nat} {extra : List Nat} {away : Option Nat}
  {g : Generator} {items : List Item} {name : String}

section Headers

/-- **A definition is opened,** with cells for the result and the slot to return to. -/
theorem ends_startFunction (h : Sound E 0 bound extra none g items)
    (hn : E.config.keywords.contains loopKeyword = true → name ≠ loopKeyword) :
    Ends (startFunction name) g fun _ g' => Sound E 0 bound extra none g' (.header :: items) := by
  simp only [startFunction, ends_bind, ends_reserve, ends_modifyGet, ends_get, ends_modify]
  intro hlt
  refine ((h.relax (Nat.zero_le 1)).reserve hlt).ends_takeCell.mono ?_
  rintro result g₁ ⟨hresult, -, -, h⟩
  refine h.ends_takeCell.mono ?_
  rintro returnCell g₂ ⟨hreturn, -, hle, h⟩
  have hresult : DataCell E.config g₂.memory.dataNext result :=
    ⟨Nat.lt_of_lt_of_le hresult.1 hle, hresult.2⟩
  have hs := Setting.programSize_lt hresult h.memory.data_le
  obtain ⟨hr, hmem, h⟩ := h.rowFor hn (· = .unused)
  rw [← hmem] at hresult hreturn
  generalize (g₂.rowFor name (· = .unused)).1 = row at hr
  generalize (g₂.rowFor name (· = .unused)).2 = g₃ at hr hmem hresult hreturn h
  obtain ⟨held, loops, record, h1, h2, h3, h4⟩ := h.layers
  have hroot := h.table.rooted
  have hat := Scopes.at_enter g₃.symbols.scopes (.body row) g₃.symbols.rows.size
  have hd : (⟨row, (g₃.enterScope (.body row)).currentScope, g.programNext,
      some (.fresh result returnCell g₃.programNext), 0, false⟩ : Definition).header =
      some (.fresh result returnCell g₃.programNext) := rfl
  refine ⟨h.memory, h.code, ⟨hroot.enter _ _, h.table.fits, h.table.functions⟩, h.last,
    g.programNext :: held, loops, record, .header hd ?_ hr hs hat ?_, h2,
    records_of_loops? (fun _ => SymbolTable.loops?_enterScope hroot _) record h3,
    h4.perm List.perm_middle.symm⟩
  · intro a ha
    simp only [FunctionInfo.cells, FunctionInfo.fresh, List.nil_append, List.mem_cons,
      List.not_mem_nil, or_false] at ha
    rcases ha with rfl | rfl
    · exact hresult
    · exact hreturn
  · exact h1.mono (Nat.le_refl _) (Nat.le_refl _) (fun s r p ha => ha.enter _ _) fun _ hs => hs

/-- **A parameter gets its cell.** -/
theorem ends_addParameter (h : Sound E slack bound extra away g (.header :: items))
    (hn : E.config.keywords.contains loopKeyword = true → name ≠ loopKeyword) :
    Ends (addParameter name) g fun _ g' =>
      Sound E slack bound extra away g' (.header :: items) := by
  simp only [addParameter, ends_bind, ends_modify]
  refine (h.ends_bindFresh hn).mono ?_
  rintro cell g₁ ⟨hcell, -, h⟩
  obtain ⟨held, loops, record, h1, h2⟩ := h.layers
  obtain ⟨d, defs, info, outer, held, hds, rfl, hd, hi, hr, hs, hat, h1⟩ := h1.of_header
  have hmap : g₁.mapDefinition (fun d => { d with header := d.header.map fun info =>
        { info with params := info.params ++ [cell] } }) =
      { g₁ with definitions := { d with header := some { info with
        params := info.params ++ [cell] } } :: defs } := by
    rw [Generator.mapDefinition, hds]
    dsimp only
    rw [hd]
    rfl
  rw [hmap]
  refine { h with layers := ⟨_, loops, record, .header rfl (fun a ha => ?_) hr hs hat h1, h2⟩ }
  simp only [FunctionInfo.cells, List.append_assoc, List.mem_append, List.mem_singleton] at ha
  rcases ha with ha | rfl | ha
  · exact hi a (List.mem_append_left _ ha)
  · exact hcell
  · exact hi a (List.mem_append_right _ ha)

/-- A meaning is given to a row if it can be. -/
theorem ends_giveMeaning (h : Sound E slack bound extra away g items) {row : Nat}
    {change : Meaning → Except MeaningError Meaning} (hr : E.Safe g.symbols row)
    (hc : ∀ m m', change m = .ok m' → Fits E g.memory.dataNext (g.programNext + slack) m') :
    Ends (giveMeaning row change) g fun _ g' => Sound E slack bound extra away g' items := by
  simp only [giveMeaning, ends_bind, ends_get]
  cases hm : g.symbols.meaning? row with
  | none => exact (ends_pure ()).2 h
  | some m =>
    dsimp only
    cases hm' : change m with
    | error e => exact ends_defect
    | ok m' => exact ends_modify.2 (h.setMeaning hr (hc m m' hm'))

/-- **The function is put on its row.** -/
theorem ends_publish (h : Sound E slack bound extra away g (.header :: items)) :
    Ends publish g fun _ g' => Sound E slack bound extra away g' (.body :: items) := by
  simp only [publish, ends_bind, ends_get]
  obtain ⟨held, loops, record, h1, h2⟩ := h.layers
  obtain ⟨d, defs, info, outer, held, hds, rfl, hd, hi, hr, hs, hat, h1⟩ := h1.of_header
  rw [hds]
  dsimp only
  rw [hd]
  simp only [ends_bind, ends_modify]
  have hmap : g.mapDefinition (fun d => { d with header := none }) =
      { g with definitions := { d with header := none } :: defs } := by
    rw [Generator.mapDefinition, hds]
  rw [hmap]
  have h' : Sound E slack bound extra away
      { g with definitions := { d with header := none } :: defs } (.body :: items) :=
    { h with layers := ⟨_, loops, record, .body rfl hr hs hat h1, h2⟩ }
  refine h'.ends_giveMeaning hr fun m m' hm => ?_
  unfold Meaning.becomeFunction at hm
  split at hm
  · cases hm
    exact ⟨hi, Nat.le_add_right _ _⟩
  · cases hm

end Headers

section Returns

/-- What a row says of its function is there. -/
theorem fits_of_function? (h : Sound E slack bound extra away g items) {row : Nat}
    {info : FunctionInfo} (hf : g.symbols.function? row = some info) :
    Fits E g.memory.dataNext (g.programNext + slack) (.function info) := by
  obtain ⟨m, hm, hi⟩ := Option.bind_eq_some_iff.1 hf
  have hfits := h.table.fits row m hm
  cases m with
  | function info' =>
    cases hi
    exact hfits
  | _ => cases hi

/-- A return finds the innermost definition. -/
theorem ends_returningFrom (h : Sound E slack bound extra away g items) :
    Ends returningFrom g fun row? g' => (∀ row, row? = some row → E.Safe g'.symbols row) ∧
      g'.memory = g.memory ∧ Sound E slack bound extra away g' items := by
  simp only [returningFrom, ends_bind, ends_get]
  obtain ⟨held, loops, record, h1, -⟩ := h.layers
  have hsafe := h1.safe
  cases hds : g.definitions with
  | nil => exact (ends_pure _).2 ⟨(by simp), rfl, h⟩
  | cons d defs =>
    rw [hds] at hsafe
    have hd : ∀ row, some d.row = some row → E.Safe g.symbols row := fun row hrow =>
      Option.some.inj hrow ▸ hsafe d List.mem_cons_self
    dsimp only
    split
    · rw [ends_bind, ends_modify, ends_pure]
      exact ⟨hd, rfl, h.mapDefinition fun _ => ⟨rfl, rfl, rfl⟩⟩
    · rw [ends_pure]
      exact ⟨hd, rfl, h⟩

/-- **The code of a return** writes one variable cell and jumps through another. -/
theorem ends_emitReturn (h : Sound E 0 bound extra away g items) {info : FunctionInfo}
    {value : Operand} (hv : value.Reads (E.Cell g.memory.dataNext))
    (hi : ∀ a ∈ info.cells, DataCell E.config g.memory.dataNext a) :
    Ends (emitReturn info value) g fun _ g' => g'.symbols = g.symbols ∧
      g'.memory.dataNext = g.memory.dataNext ∧ g.programNext ≤ g'.programNext ∧
      Sound E 0 bound extra away g' items := by
  simp only [emitReturn, ends_bind]
  have hresult : E.Cell g.memory.dataNext info.result := .inl (hi _ (by simp [FunctionInfo.cells]))
  have hreturn : E.Cell g.memory.dataNext info.returnCell :=
    .inl (hi _ (by simp [FunctionInfo.cells]))
  refine (h.ends_emit (Instruction.closed_assign hv
    (Operand.writes_direct hresult (h.cell_lt hresult)))).mono ?_
  rintro _ g₁ ⟨rfl, h₁⟩
  refine (h₁.ends_emit (Instruction.closed_jumpThrough hreturn (h.cell_lt hreturn))).mono ?_
  rintro _ g₂ ⟨rfl, h₂⟩
  refine ⟨rfl, rfl, ?_, h₂⟩
  simp only [Generator.programNext, Memory.programNext, Generator.append, Array.size_push]
  omega

theorem ends_returnWith (h : Sound E 0 bound extra away g (.value :: items)) (line : Nat) :
    Ends (returnWith line) g fun _ g' => Sound E 0 bound extra away g' items := by
  simp only [returnWith, ends_bind, ends_takeValue]
  obtain ⟨hv, hmem, h⟩ := h.takeValue line
  generalize (g.takeValue line).1 = value at hv
  generalize (g.takeValue line).2 = g₁ at hmem h
  rw [← hmem] at hv
  refine h.ends_returningFrom.mono ?_
  rintro row? g₂ ⟨hrow, hmem, h⟩
  rw [← hmem] at hv
  cases row? with
  | none => exact (ends_pure ()).2 h
  | some row =>
    simp only [ends_bind]
    refine ends_functionOn.mono ?_
    rintro info g₃ ⟨rfl, hf⟩
    obtain ⟨hcells, hstart⟩ := h.fits_of_function? hf
    refine (h.ends_emitReturn hv hcells).mono ?_
    rintro _ g₄ ⟨hsym, hdata, hnext, h⟩
    rw [ends_modify]
    refine h.setMeaning (by rw [hsym]; exact hrow row rfl) ⟨?_, Nat.le_trans hstart hnext⟩
    rw [hdata]
    exact hcells

theorem ends_returnNothing (h : Sound E 0 bound extra away g items) :
    Ends returnNothing g fun _ g' => Sound E 0 bound extra away g' items := by
  simp only [returnNothing, ends_bind]
  refine h.ends_returningFrom.mono ?_
  rintro row? g₁ ⟨hrow, hmem, h⟩
  cases row? with
  | none => exact (ends_pure ()).2 h
  | some row =>
    simp only [ends_bind]
    refine ends_functionOn.mono ?_
    rintro info g₂ ⟨rfl, hf⟩
    have hreturn : E.Cell g₂.memory.dataNext info.returnCell :=
      .inl ((h.fits_of_function? hf).1 _ (by simp [FunctionInfo.cells]))
    exact (h.ends_emit (Instruction.closed_jumpThrough hreturn (h.cell_lt hreturn))).mono
      fun _ _ h' => h'.2

end Returns

section Ends

/-- The end of a body: the jump around it is filled, and its scope is left. -/
theorem ends_closeBody {d : Definition} {outer : Nat} (hs : E.config.programSize < 2 ^ 63)
    (h : Sound E 0 bound (d.aroundSlot :: extra) (some outer) g items)
    (hr : E.Safe g.symbols d.row)
    (hat : g.symbols.scopes.At g.currentScope (.body d.row) (some outer)) :
    Ends (settle (some d.aroundSlot) (.jump g.programNext)) g fun _ g' =>
      Sound E 0 bound extra none { g'.leaveScope with lastDefined := some d.row } items := by
  have hsize := h.memory.size
  refine (h.ends_settle (Instruction.closed_jump (Nat.le_refl _)
    (Nat.lt_of_le_of_lt hsize hs))).mono ?_
  rintro _ g' ⟨rfl, h⟩
  refine { h.leaveScope hat with last := fun row hrow => ?_ }
  obtain rfl := Option.some.inj hrow
  exact hr

/-- **A definition is closed.** A body whose end can be reached returns zero there. -/
theorem ends_endFunction (h : Sound E 0 bound extra none g (.body :: items)) :
    Ends endFunction g fun _ g' => Sound E 0 bound extra none g' items := by
  obtain ⟨held, loops, record, h1, h2, h3, h4⟩ := h.layers
  obtain ⟨d, defs, outer, held, hds, rfl, hd, hr, hs, hat, h1⟩ := h1.of_body
  simp only [endFunction, publish, ends_bind, ends_get, hds, hd, ends_pure, ends_modify]
  have h' : Sound E 0 bound (d.aroundSlot :: extra) (some outer) { g with definitions := defs }
      items := by
    refine { h with layers := ⟨held, loops, record, h1, h2, h3, h4.perm ?_⟩ }
    exact List.perm_middle
  split
  · simp only [ends_bind, ends_get, ends_modify]
    refine ends_functionOn.mono ?_
    rintro info g₁ ⟨rfl, hf⟩
    refine (h'.ends_emitReturn (Operand.reads_immediate 0) (h'.fits_of_function? hf).1).mono ?_
    rintro _ g₂ ⟨hsym, -, -, h₂⟩
    refine h₂.ends_closeBody hs ?_ ?_
    · rw [hsym]
      exact hr
    · rw [Generator.currentScope, hsym]
      exact hat
  · simp only [ends_bind, ends_get, ends_modify]
    exact h'.ends_closeBody hs hr hat

/-- Rivals are functions. -/
theorem function?_of_mem_rivals {row other : Nat} (h : other ∈ g.rivals row) :
    (g.symbols.function? other).isSome := by
  unfold Generator.rivals at h
  split at h
  · have hin := List.mem_of_mem_filter h
    unfold SymbolTable.functionsIn at hin
    have := List.of_mem_filter hin
    rw [Bool.and_eq_true] at this
    exact this.2
  · exact absurd h List.not_mem_nil

/-- **A function is taken out** of the program. -/
theorem retireFunction (h : Sound E slack bound extra away g items) {row : Nat}
    (hf : (g.symbols.function? row).isSome) :
    Sound E slack bound extra away (g.retireFunction row) items := by
  obtain ⟨info, hinfo⟩ := Option.isSome_iff_exists.1 hf
  have hr := h.table.functions row hf
  have hcells := (h.fits_of_function? hinfo).1
  have hs := h.withSymbols (steady_retire h.table.rooted hr) (h.table.retire hr)
  have hfree := Memory.freeCells_eq info.cells g.memory
  have hw := hs.withData (h.memory.freeCells hcells) (by rw [hfree]) (by rw [hfree])
  unfold Generator.retireFunction
  rw [hinfo]
  exact hw

theorem ends_retireRivals (h : Sound E slack bound extra away g items) (line : Nat) :
    Ends (retireRivals line) g fun _ g' => Sound E slack bound extra away g' items := by
  simp only [retireRivals, ends_bind, ends_get]
  cases hl : g.lastDefined with
  | none => exact (ends_pure ()).2 h
  | some row =>
    simp only [ends_bind, ends_modify]
    have h' : Sound E slack bound extra away { g with lastDefined := none } items :=
      { h with last := fun _ hc => by cases hc }
    refine (ends_forM (P := fun g' => Sound E slack bound extra away g' items ∧
      ∀ i, g'.symbols.meaning? i = g.symbols.meaning? i) ⟨h', fun _ => rfl⟩ ?_).mono
      fun _ _ h => h.1
    rintro other hother g₁ ⟨h, hm⟩
    simp only [ends_bind, ends_report, ends_modify]
    have hf : (g₁.symbols.function? other).isSome := by
      rw [SymbolTable.function?, hm]
      exact function?_of_mem_rivals hother
    refine ⟨(h.report line _).retireFunction hf, fun i => ?_⟩
    exact (SymbolTable.meaning?_retire).trans (hm i)

end Ends

end Sound

end OnePass.Emission
