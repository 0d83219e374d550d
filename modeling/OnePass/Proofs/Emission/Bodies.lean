import OnePass.Proofs.Emission.Control

/-!
# What definitions and returns do

A definition reserves the slot of the jump around its body, and fills it at the end. What
its function needs is put on a row when the parameters are read, and stays there. The
states that these actions leave are given in full.

* `Keeps`: a change of the table that loses no function and no scope.
* `ends_startFunction_eq`, `ends_addParameter_eq`, `ends_publish_eq`: the header.
* `ends_returnWith_eq`, `ends_returnNothing_eq`: returns.
* `ends_endFunction_eq`, `ends_retireRivals_eq`: the end.
-/

namespace OnePass.Names

/-- The function with nothing said of its value. A return with one changes nothing else. -/
def FunctionInfo.bare (f : FunctionInfo) : FunctionInfo := { f with returnsValue := false }

@[simp] theorem FunctionInfo.bare_bare (f : FunctionInfo) : f.bare.bare = f.bare := rfl

@[simp] theorem FunctionInfo.result_bare (f : FunctionInfo) : f.bare.result = f.result := rfl

@[simp] theorem FunctionInfo.returnCell_bare (f : FunctionInfo) : f.bare.returnCell = f.returnCell :=
  rfl

@[simp] theorem FunctionInfo.start_bare (f : FunctionInfo) : f.bare.start = f.start := rfl

@[simp] theorem FunctionInfo.bare_valued (f : FunctionInfo) (b : Bool) :
    ({ f with returnsValue := b } : FunctionInfo).bare = f.bare := rfl

end OnePass.Names

namespace OnePass.Emission

open Names Target

/-- **A change of the table that loses nothing.** Scopes stay where they stand, no row comes to be
called like the loop keyword, and a function may only come to return a value. -/
structure Keeps (E : Setting) (t t' : SymbolTable) : Prop where
  rooted : t.scopes.Rooted → t'.scopes.Rooted
  scopes : ∀ s r p, t.scopes.At s r p → t'.scopes.At s r p
  places : ∀ row s, t.scope? row = some s → t'.scope? row = some s
  safe : ∀ row, E.Safe t row → E.Safe t' row
  functions : ∀ row f, t.function? row = some f →
    ∃ f', t'.function? row = some f' ∧ f'.bare = f.bare

section Keeps

variable {E : Setting} {t t' t'' : SymbolTable} {g g' : Generator} {row : Nat}

theorem Keeps.refl (E : Setting) (t : SymbolTable) : Keeps E t t :=
  ⟨fun h => h, fun _ _ _ h => h, fun _ _ h => h, fun _ h => h, fun _ f h => ⟨f, h, rfl⟩⟩

theorem Keeps.trans (h : Keeps E t t') (h' : Keeps E t' t'') : Keeps E t t'' where
  rooted hr := h'.rooted (h.rooted hr)
  scopes s r p ha := h'.scopes s r p (h.scopes s r p ha)
  places row s hs := h'.places row s (h.places row s hs)
  safe row hs := h'.safe row (h.safe row hs)
  functions row f hf := by
    obtain ⟨f', hf', hbare'⟩ := h.functions row f hf
    obtain ⟨f'', hf'', hbare''⟩ := h'.functions row f' hf'
    exact ⟨f'', hf'', hbare''.trans hbare'⟩

/-- A change that leaves the scopes and the functions alone. -/
theorem Keeps.of_steady (h : Steady E t t') (hscopes : t'.scopes = t.scopes)
    (hplaces : ∀ row s, t.scope? row = some s → t'.scope? row = some s)
    (hf : ∀ row, t'.function? row = t.function? row) :
    Keeps E t t' where
  rooted hr := hscopes ▸ hr
  scopes := h.scopes
  places := hplaces
  safe := h.safe
  functions row f hrow := ⟨f, (hf row).trans hrow, rfl⟩

theorem Quiet.keeps (h : Quiet E g g') (hroot : g.symbols.scopes.Rooted)
    (hr : ∃ record, E.Records g.symbols record) : Keeps E g.symbols g'.symbols :=
  .of_steady (h.steady hroot hr) h.scopes h.rows.places h.functions

/-- The loops change, and nothing is lost. -/
theorem keeps_recorded {record : LoopRecord} (h : t.Recorded t' record) : Keeps E t t' where
  rooted hr := h.scopes ▸ hr
  scopes s r p ha := h.scopes ▸ ha
  places row _ hs := (h.places row).trans hs
  safe row hs hk := by
    rw [h.names]
    exact hs hk
  functions row f hf := ⟨f, (h.functions row).trans hf, rfl⟩

theorem keeps_enterScope (t : SymbolTable) (region : Region) : Keeps E t (t.enterScope region) where
  rooted h := h.enter _ _
  scopes _ _ _ h := h.enter _ _
  places _ _ h := h
  safe _ h := h
  functions _ f h := ⟨f, h, rfl⟩

theorem keeps_leaveScope (t : SymbolTable) : Keeps E t t.leaveScope where
  rooted h := h.leave _
  scopes _ _ _ h := h.leave _
  places _ _ h := h
  safe _ h := h
  functions _ f h := ⟨f, h, rfl⟩

end Keeps

/-- The definition with a return noted, if that stands in this scope and nothing can jump over
it. -/
def Definition.noting (d : Definition) (returns : Bool) (scope : Nat) : Definition :=
  { d with alwaysReturns := d.alwaysReturns || (returns && d.scope == scope && d.heldSlots == 0) }

/-- The generator with a return noted in the innermost definition. -/
def Generator.noted (g : Generator) : Generator :=
  g.mapDefinition (·.noting true g.currentScope)

/-- The generator with the code that leaves a function with a value. -/
def Generator.leaving (g : Generator) (f : FunctionInfo) (value : Operand) : Generator :=
  (g.append (some (.assign value (.direct f.result)))).append (some (.jumpThrough f.returnCell))

variable {E : Setting} {g : Generator} {st : OperandStack} {line row : Nat} {name : String}
  {d : Definition} {rest : List Definition} {f : FunctionInfo} {value : Operand}

section Returns

theorem ends_returningFrom_eq (hd : g.definitions = d :: rest) : Ends returningFrom g fun row g' =>
    row = some d.row ∧ g' = g.noted := by
  simp only [returningFrom, ends_bind, ends_get, hd]
  have hnoted : g.noted = { g with definitions := d.noting true g.currentScope :: rest } := by
    rw [Generator.noted, Generator.mapDefinition, hd]
  split
  · rename_i hc
    rw [ends_bind, ends_modify]
    refine (ends_pure _).2 ⟨rfl, ?_⟩
    rw [hnoted, Generator.mapDefinition, hd]
    simp [Definition.noting, hc]
  · rename_i hc
    refine (ends_pure _).2 ⟨rfl, ?_⟩
    have hsame : d.noting true g.currentScope = d := by
      have hfalse : (d.scope == g.currentScope && d.heldSlots == 0) = false := by
        rw [Bool.and_eq_false_iff, beq_eq_false_iff_ne, beq_eq_false_iff_ne]
        exact not_and_or.1 hc
      simp [Definition.noting, hfalse]
    rw [hnoted, hsame, ← hd]

theorem ends_emitReturn_eq : Ends (emitReturn f value) g fun _ g' => g' = g.leaving f value := by
  simp only [emitReturn, ends_bind, ends_emit]
  exact fun _ _ => rfl

/-- **A return with a value** leaves the function that is being compiled. -/
theorem ends_returnWith_eq (h : g.stack = value :: st) (hd : g.definitions = d :: rest)
    (hf : g.symbols.function? d.row = some f) : Ends (returnWith line) g fun _ g' =>
      ∃ g₁, Took line [value] g st g₁ ∧ g' = (g₁.noted.leaving f value).setMeaning d.row
        (.function { f with returnsValue := true }) := by
  simp only [returnWith, ends_bind, ends_takeValue]
  obtain ⟨hvalue, h₁⟩ := took_takeValue h line
  have hdefs : (g.takeValue line).2.definitions = d :: rest := by
    obtain ⟨_, _, heq⟩ := h₁.frame
    rw [heq]
    exact hd
  refine (ends_returningFrom_eq hdefs).mono ?_
  rintro _ g₂ ⟨rfl, rfl⟩
  simp only [ends_bind]
  refine ends_functionOn.mono ?_
  rintro found g₃ ⟨rfl, hfound⟩
  have heq : found = f := by
    have hsame : (g.takeValue line).2.noted.symbols = g.symbols := h₁.symbols
    rw [hsame, hf] at hfound
    exact (Option.some.inj hfound).symm
  rw [hvalue, heq]
  refine ends_emitReturn_eq.mono ?_
  rintro _ g₄ rfl
  rw [ends_modify]
  exact ⟨_, h₁, rfl⟩

/-- Outside of functions a return only takes its value. -/
theorem ends_returnWith_none (h : g.stack = value :: st) (hd : g.definitions = []) :
    Ends (returnWith line) g fun _ g' => Took line [value] g st g' := by
  simp only [returnWith, ends_bind, ends_takeValue]
  obtain ⟨-, h₁⟩ := took_takeValue h line
  have hdefs : (g.takeValue line).2.definitions = [] := by
    obtain ⟨_, _, heq⟩ := h₁.frame
    rw [heq]
    exact hd
  simp only [returningFrom, ends_bind, ends_get, hdefs, ends_pure]
  exact h₁

/-- **A return with no value.** -/
theorem ends_returnNothing_eq (hd : g.definitions = d :: rest)
    (hf : g.symbols.function? d.row = some f) : Ends returnNothing g fun _ g' =>
      g' = g.noted.append (some (.jumpThrough f.returnCell)) := by
  simp only [returnNothing, ends_bind]
  refine (ends_returningFrom_eq hd).mono ?_
  rintro _ g₁ ⟨rfl, rfl⟩
  simp only [ends_bind]
  refine ends_functionOn.mono ?_
  rintro found g₂ ⟨rfl, hfound⟩
  have heq : found = f := by
    have hsame : g.noted.symbols = g.symbols := rfl
    rw [hsame, hf] at hfound
    exact (Option.some.inj hfound).symm
  rw [heq, ends_emit]
  exact fun _ => rfl

theorem ends_returnNothing_none (hd : g.definitions = []) :
    Ends returnNothing g fun _ g' => g' = g := by
  simp only [returnNothing, returningFrom, ends_bind, ends_get, hd, ends_pure]

end Returns

section Headers

/-- **A definition is opened:** the slot of the jump around its body is reserved, and its function
gets a row. -/
theorem ends_startFunction_eq : Ends (startFunction name) g fun _ g' =>
    ∃ result returnCell m row t, m.program = g.memory.program.push none ∧
      (row, t) = g.symbols.rowFor name .identifier (· = .unused) ∧
      g' = { g with
        symbols := t.enterScope (.body row)
        memory := m
        definitions := ⟨row, t.scopes.all.size, g.programNext,
          some (.fresh result returnCell (g.programNext + 1)), 0, false⟩ :: g.definitions } := by
  simp only [startFunction, ends_bind, ends_reserve, ends_modifyGet, ends_get, ends_modify]
  intro _
  simp only [ends_onMemory]
  intro result m hm returnCell m' hm'
  have hprogram : m'.program = g.memory.program.push none :=
    (Memory.program_takeCell hm').trans (Memory.program_takeCell hm)
  refine ⟨result, returnCell, m', (g.symbols.rowFor name .identifier (· = .unused)).1,
    (g.symbols.rowFor name .identifier (· = .unused)).2, hprogram, rfl, ?_⟩
  have hnext : m'.program.size = g.programNext + 1 := by
    rw [hprogram, Array.size_push]
    rfl
  simp only [Generator.programNext, Memory.programNext, Generator.rowFor, hnext]
  rfl

/-- The function whose parameters are being read, with one more. -/
def Definition.addParam (d : Definition) (cell : Nat) : Definition :=
  { d with header := d.header.map fun f => { f with params := f.params ++ [cell] } }

/-- **A parameter** is a name that is bound. -/
theorem ends_addParameter_eq (hn : E.Bindable name) : Ends (addParameter name) g fun _ g' =>
    ∃ cell g₁, Quiet E g g₁ ∧ g₁.stack = g.stack ∧ g₁.memory.program = g.memory.program ∧
      g' = g₁.mapDefinition (·.addParam cell) := by
  simp only [addParameter, bindFresh, ends_bind, ends_modifyGet, ends_modify, ends_pure,
    ends_onMemory]
  intro cell m hm
  exact ⟨cell, _, quiet_bind g hn (some cell) (Memory.program_takeCell hm), rfl,
    Memory.program_takeCell hm, rfl⟩

/-- **The function is put on its row,** and its body starts here. -/
theorem ends_publish_eq (hd : g.definitions = d :: rest) (hh : d.header = some f)
    (hrow : ∃ s, g.symbols.scope? d.row = some s) : Ends publish g fun _ g' =>
      g.symbols.function? d.row = none ∧
        g' = { g with definitions := { d with header := none } :: rest }.setMeaning d.row
          (.function { f with start := g.programNext }) := by
  simp only [publish, ends_bind, ends_get, hd, hh, ends_modify, giveMeaning]
  obtain ⟨m, hm⟩ : ∃ m, g.symbols.meaning? d.row = some m := by
    obtain ⟨s, hs⟩ := hrow
    obtain ⟨r, hr, -⟩ := Option.map_eq_some_iff.1 hs
    exact ⟨r.meaning, by rw [SymbolTable.meaning?, hr]; rfl⟩
  have hdefs : g.mapDefinition (fun d => { d with header := none }) =
      { g with definitions := { d with header := none } :: rest } := by
    rw [Generator.mapDefinition, hd]
  rw [hdefs]
  dsimp only
  rw [hm]
  dsimp only
  rcases m with cell | info | record
  · simp only [Meaning.becomeFunction, Meaning.isVariable, if_true, ends_modify]
    exact ⟨by rw [SymbolTable.function?, hm]; rfl, trivial⟩
  · exact ends_defect
  · exact ends_defect

/-- Where no parameters are being read, there is nothing to publish. -/
theorem ends_publish_none (hd : g.definitions = d :: rest) (hh : d.header = none) :
    Ends publish g fun _ g' => g' = g := by
  simp only [publish, ends_bind, ends_get, hd, hh, ends_pure]

end Headers

section Ends

/-- The generator with the end of a body, which returns zero if it can be reached. -/
def Generator.ended (g : Generator) (d : Definition) (f : FunctionInfo) : Generator :=
  if d.alwaysReturns then g else g.leaving f (.immediate 0)

/-- **A definition ends** behind its body, where the jump around that leads. -/
theorem ends_endFunction_eq (hd : g.definitions = d :: rest) (hh : d.header = none)
    (hf : g.symbols.function? d.row = some f) : Ends endFunction g fun _ g' =>
      ∃ g₁, g₁ = { g with definitions := rest }.ended d f ∧
        g' = { (g₁.withProgram (settled g₁.memory.program d.aroundSlot
          (.jump g₁.programNext))).leaveScope with lastDefined := some d.row } := by
  simp only [endFunction, ends_bind, ends_get]
  refine (ends_publish_none hd hh).mono ?_
  rintro _ g₁ rfl
  simp only [hd, ends_bind, ends_modify]
  cases hreturns : d.alwaysReturns with
  | true =>
    simp only [Bool.not_true, Bool.false_eq_true, if_false, ends_bind, ends_get, ends_settle_eq,
      ends_modify]
    refine ⟨_, rfl, ?_⟩
    rw [Generator.ended, if_pos hreturns]
  | false =>
    simp only [Bool.not_false, if_true, ends_bind]
    refine ends_functionOn.mono ?_
    rintro found g₂ ⟨rfl, hfound⟩
    have heq : found = f := by
      rw [hf] at hfound
      exact (Option.some.inj hfound).symm
    rw [heq]
    refine ends_emitReturn_eq.mono ?_
    rintro _ g₃ rfl
    simp only [ends_get, ends_settle_eq, ends_modify]
    refine ⟨_, rfl, ?_⟩
    rw [Generator.ended, if_neg (by simp [hreturns])]

/-- **A function that takes another's place** renames it, and that is all that names notice. -/
theorem ends_retireRivals_eq (hroot : g.symbols.scopes.Rooted)
    (hsafe : ∀ i, (g.symbols.function? i).isSome → E.Safe g.symbols i) :
    Ends (retireRivals line) g fun _ g' =>
      ∃ m t errors last, m.program = g.memory.program ∧
        g' = { g with symbols := t, memory := m, errors := errors, lastDefined := last } ∧
        Steady E g.symbols t ∧ t.scopes = g.symbols.scopes ∧
        (∀ i, t.scope? i = g.symbols.scope? i) ∧
        ∀ i, t.function? i = g.symbols.function? i := by
  simp only [retireRivals, ends_bind, ends_get]
  cases hl : g.lastDefined with
  | none =>
    rw [ends_pure]
    exact ⟨g.memory, g.symbols, g.errors, g.lastDefined, rfl, rfl, .refl E _, rfl, fun _ => rfl,
      fun _ => rfl⟩
  | some row =>
    simp only [ends_bind, ends_modify]
    refine ends_forM ⟨g.memory, g.symbols, g.errors, none, rfl, rfl, .refl E _, rfl, fun _ => rfl,
      fun _ => rfl⟩ ?_
    rintro other hother g₁ ⟨m, t, errors, last, hm, rfl, hsteady, hscopes, hplaces, hf⟩
    simp only [ends_bind, ends_report, ends_modify]
    have hother : (g.symbols.function? other).isSome := Sound.function?_of_mem_rivals hother
    refine ⟨_, t.retire other, _, last, ?_, rfl, hsteady.trans (steady_retire ?_ ?_),
      hscopes, fun i => SymbolTable.scope?_retire.trans (hplaces i), fun i => ?_⟩
    · exact (Memory.program_freeCells _ _).trans hm
    · rw [hscopes]
      exact hroot
    · exact hsteady.safe other (hsafe other hother)
    · exact SymbolTable.function?_retire.trans (hf i)

end Ends

end OnePass.Emission
