import OnePass.Proofs.Emission.Framing
import OnePass.Proofs.Emission.Titles
import OnePass.Proofs.Names.Selection

/-!
# Actions and the functions on rows

Calls find functions on rows, by their names and scopes. Most actions change none of that. Loops
open and close scopes, a definition begins on a row of no function, and a return with a value
changes the function on one row.

* `SymbolTable.Unmoved`: a table with the same functions and scopes. `unmoved_perform`: actions that
  leave it so.
* `ends_startLoop_table`, `ends_endLoop_table`: loops.
* `ends_startFunction_table`, `ends_returnWith_table`: definitions and their returns.
-/

namespace OnePass

namespace Names.SymbolTable

variable {t t' t'' : SymbolTable} {x : String} {row i : Nat} {m : Meaning} {reuse : Meaning → Bool}

/-- **A table whose functions have not moved:** rows keep their names and stand for the functions
that they stood for, and the scopes are the same. All new rows have one name. -/
structure Unmoved (x : String) (t t' : SymbolTable) : Prop where
  lengthens : t.Lengthens x t'
  functions : ∀ i, t'.function? i = t.function? i
  scopes : t'.scopes = t.scopes

theorem Unmoved.refl (x : String) (t : SymbolTable) : Unmoved x t t :=
  ⟨.refl x t, fun _ => rfl, rfl⟩

theorem Unmoved.trans (h : Unmoved x t t') (h' : Unmoved x t' t'') : Unmoved x t t'' where
  lengthens := h.lengthens.trans h'.lengthens
  functions i := (h'.functions i).trans (h.functions i)
  scopes := h'.scopes.trans h.scopes

theorem unmoved_record (t : SymbolTable) (token : Lexical.Token) :
    Unmoved token.lexeme t (t.record token) :=
  ⟨lengthens_record token, fun _ => function?_record t token, scopes_record t token⟩

theorem unmoved_rowFor (t : SymbolTable) (x : String) (reuse : Meaning → Bool) :
    Unmoved x t (t.rowFor x .identifier reuse).2 :=
  ⟨lengthens_rowFor, fun _ => function?_rowFor reuse, scopes_rowFor t x .identifier reuse⟩

/-- A row of no function may mean something else that is none. -/
theorem unmoved_setMeaning (x : String) (h : t.function? row = none) (hm : m.function? = none) :
    Unmoved x t (t.setMeaning row m) :=
  ⟨lengthens_setMeaning, fun _ => function?_setMeaning h hm, rfl⟩

/-- **A function is put on a row** that was there. -/
theorem function?_setFunction {info : FunctionInfo} (h : row < t.rows.size) :
    (t.setMeaning row (.function info)).function? i =
      if row = i then some info else t.function? i := by
  rw [function?, meaning?_setMeaning]
  split
  · rename_i heq
    subst heq
    rw [meaning?, Array.getElem?_eq_getElem h]
    rfl
  · rfl

end Names.SymbolTable

namespace Emission

open Grammar (Action)
open Names Target

variable {g : Generator} {t : SymbolTable} {x : String} {row line : Nat} {a : Action}
  {d : Definition} {rest : List Definition} {info : FunctionInfo} {keywords : List String}

section Loops

/-- **The row of the loops** stands for no function. -/
theorem ends_loopRecord_table (h : t.Unmoved x g.symbols) :
    Ends loopRecord g fun found g' =>
      t.Unmoved x g'.symbols ∧ g'.symbols.function? found.1 = none := by
  simp only [loopRecord, ends_bind, ends_get]
  split
  · exact ends_defect
  · rename_i row _
    have hnone : ∀ m, g.symbols.meaning? row = some m → m.function? = none →
        g.symbols.function? row = none := fun m hm hf => by
      rw [SymbolTable.function?, hm]
      exact hf
    split
    · rename_i record hm
      exact (ends_pure _).2 ⟨h, hnone _ hm rfl⟩
    · rename_i cell hm
      simp only [ends_bind, ends_modify, ends_pure]
      have hset := SymbolTable.unmoved_setMeaning x (m := .loops .empty) (hnone _ hm rfl) rfl
      exact ⟨h.trans hset, (hset.functions row).trans (hnone _ hm rfl)⟩
    · exact ends_defect

/-- **A loop is entered** in a table whose functions have not moved. -/
theorem ends_startLoop_table (x : String) : Ends startLoop g fun _ g' =>
    ∃ t, g.symbols.Unmoved x t ∧ g'.symbols = t.enterScope .loop := by
  simp only [startLoop, ends_bind, ends_get]
  refine (ends_loopRecord_table (.refl x _)).mono ?_
  rintro ⟨row, record⟩ g₁ ⟨h₁, hnone⟩
  simp only [ends_modify]
  exact ⟨_, h₁.trans (SymbolTable.unmoved_setMeaning x hnone rfl), rfl⟩

/-- **A loop is left** in such a table. -/
theorem ends_endLoop_table (x : String) : Ends endLoop g fun _ g' =>
    ∃ t, g.symbols.Unmoved x t ∧ g'.symbols = t.leaveScope := by
  have haloof : Aloof fun g' => g.symbols.Unmoved x g'.symbols := .of_symbols
  rw [endLoop, ends_bind]
  refine (haloof.heldSlot g (.refl x _)).mono fun slot g₁ h₁ => ?_
  rw [ends_bind]
  refine (haloof.pop g₁ h₁).mono fun condition g₂ h₂ => ?_
  rw [ends_bind]
  refine (ends_loopRecord_table h₂).mono ?_
  rintro ⟨row, record⟩ g₃ ⟨h₃, hnone⟩
  dsimp only
  split
  · simp only [ends_bind, ends_modify]
    refine (haloof.settleLoop _ (h₃.trans ?_)).mono fun _ g₄ h₄ => ⟨_, h₄, rfl⟩
    exact SymbolTable.unmoved_setMeaning x hnone rfl
  · exact ends_modify.2 ⟨_, h₃, rfl⟩

/-- A jump out of a loop moves no function. -/
theorem ends_leaveLoop_table (x : String) {outside : SemanticFault}
    {add : LoopRecord → Nat → LoopRecord} : Ends (leaveLoop line outside add) g fun _ g' =>
      g.symbols.Unmoved x g'.symbols := by
  simp only [leaveLoop, ends_bind, ends_get]
  split
  · simp only [ends_bind, ends_onMemory]
    intro slot m _
    refine (ends_loopRecord_table (.refl x _)).mono ?_
    rintro ⟨row, record⟩ g₁ ⟨h₁, hnone⟩
    simp only [ends_modify]
    exact h₁.trans (SymbolTable.unmoved_setMeaning x hnone rfl)
  · exact ends_report.2 (.refl x _)

end Loops

section Others

/-- Actions that open or close a scope, or change a function on its row. -/
def movesFunctions : Action → Bool
  | .loopBegin | .loopEnd | .enterFunction | .paramsDone | .returnValue | .exitFunction
  | .checkOverload => true
  | _ => false

/-- **All other actions move no function.** -/
theorem unmoved_perform (ha : movesFunctions a = false)
    (hn : a.behind? = some .identifier → keywords.contains loopKeyword = true → x ≠ loopKeyword) :
    Ends (perform a x line) g fun _ g' => g.symbols.Unmoved x g'.symbols := by
  have hlengthens : Ends (perform a x line) g fun _ g' => g.symbols.Lengthens x g'.symbols :=
    lengthens_perform (by rintro rfl; cases ha)
  by_cases hcomputes : Computes a = true
  · have hquiet : Ends (perform a x line) g fun _ g' => Quiet (.reserving keywords) g g' :=
      hushes_perform (E := .reserving keywords) hcomputes hn g
    exact (hlengthens.and hquiet).mono fun _ _ h => ⟨h.1, h.2.functions, h.2.scopes⟩
  by_cases haside : isAside a = true
  · have haloof : Aloof fun g' => g'.symbols = g.symbols := .of_symbols (P := (· = g.symbols))
    refine (haloof.perform haside g rfl).mono fun _ g' h => ?_
    rw [h]
    exact .refl x _
  cases a with
  | breakLoop | continueLoop => exact ends_leaveLoop_table x
  | param =>
    have hquiet := ends_addParameter_eq (E := .reserving keywords) (g := g) (hn rfl)
    refine (hlengthens.and hquiet).mono ?_
    rintro _ g' ⟨hl, cell, g₁, h₁, -, -, rfl⟩
    exact ⟨hl, h₁.functions, h₁.scopes⟩
  | loopBegin | loopEnd | enterFunction | paramsDone | returnValue | exitFunction
  | checkOverload => cases ha
  | _ => first | exact absurd rfl hcomputes | exact absurd rfl haside

end Others

section Definitions

/-- **A definition begins** on a row of its name, and in a scope of its own. -/
theorem ends_startFunction_table : Ends (startFunction x) g fun _ g' => ∃ d,
    g'.definitions = d :: g.definitions ∧ (∃ f, d.header = some f ∧ f.params = [] ∧
      f.returnsValue = false) ∧
    d.row = (g.symbols.rowFor x .identifier (· = .unused)).1 ∧
      g'.symbols = (g.symbols.rowFor x .identifier (· = .unused)).2.enterScope (.body d.row) := by
  refine ends_startFunction_eq.mono ?_
  rintro _ _ ⟨result, returnCell, m, row, t, -, heq, rfl⟩
  rw [← heq]
  exact ⟨_, rfl, ⟨_, rfl, rfl, rfl⟩, rfl, rfl⟩

/-- **A parameter is added** to the function of the innermost definition. -/
theorem definitions_addParameter : Ends (addParameter x) g fun _ g' => ∃ cell,
    g'.definitions = (g.mapDefinition (·.addParam cell)).definitions := by
  simp only [addParameter, bindFresh, ends_bind, ends_modifyGet, ends_onMemory, ends_modify,
    ends_pure]
  intro cell m _
  exact ⟨cell, rfl⟩

/-- Operands and code have nothing to do with the table and the rows of definitions. -/
theorem aloof_rows (g : Generator) : Aloof fun g' => g'.symbols = g.symbols ∧
    g'.definitions.map (·.row) = g.definitions.map (·.row) :=
  (Aloof.of_symbols (P := (· = g.symbols))).and
    (Titular.aloof (x := "") fun _ _ hg h => h.rows.trans hg)

/-- **A return with a value** changes nothing about names but the function of the innermost
definition, which gives a value from then on. -/
theorem ends_returnWith_table (hd : g.definitions = d :: rest)
    (hf : g.symbols.function? d.row = some info) : Ends (returnWith line) g fun _ g' =>
      g'.symbols =
        g.symbols.setMeaning d.row (.function { info with returnsValue := true }) := by
  rw [returnWith, ends_bind]
  refine ((aloof_rows g).takeValue g ⟨rfl, rfl⟩).mono ?_
  rintro value g₁ ⟨hs₁, hrows₁⟩
  rw [ends_bind]
  obtain ⟨d₁, rest₁, hd₁, hrow₁, -⟩ := List.map_eq_cons_iff.1 (hrows₁.trans (congrArg _ hd))
  have hrow₁ : d₁.row = d.row := hrow₁
  refine (ends_returningFrom_eq hd₁).mono ?_
  rintro _ g₂ ⟨rfl, rfl⟩
  simp only [ends_bind]
  refine ends_functionOn.mono ?_
  rintro found _ ⟨rfl, hfound⟩
  have hsame : g₁.noted.symbols = g.symbols := hs₁
  obtain rfl : found = info := by
    rw [hsame, hrow₁, hf] at hfound
    exact (Option.some.inj hfound).symm
  refine ends_emitReturn_eq.mono ?_
  rintro _ _ rfl
  rw [ends_modify, ← hrow₁, ← hs₁]
  rfl

/-- Outside of definitions it changes none. -/
theorem symbols_returnWith_none (hd : g.definitions = []) : Ends (returnWith line) g fun _ g' =>
    g'.symbols = g.symbols := by
  rw [returnWith, ends_bind]
  refine ((aloof_rows g).takeValue g ⟨rfl, rfl⟩).mono ?_
  rintro value g₁ ⟨hs₁, hrows₁⟩
  rw [hd, List.map_nil, List.map_eq_nil_iff] at hrows₁
  simp only [returningFrom, ends_bind, ends_get, hrows₁, ends_pure]
  exact hs₁

end Definitions

end Emission

end OnePass
