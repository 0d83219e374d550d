import OnePass.Proofs.Emission.Aloof
import OnePass.Proofs.Names.Overloads

/-!
# Rows keep their names

Actions add rows and change what rows stand for, but a row keeps its name, and all new rows are
called by the text behind which the action stands. Only a function whose place is taken is
renamed, and that is reported. A definition stays on its row while it is open.

* `Retains`: a step that leaves names and open definitions on their rows.
* `Titular`: a property of these. `Titular.perform`: actions that do not mind it.
* `lengthens_perform`: **a row keeps its name and its scope,** whatever is defined.
-/

namespace OnePass.Emission

open Grammar (Action)
open Names Target

/-- **Rows keep their names,** and the open definitions their rows. All new rows have one name. -/
structure Retains (x : String) (g g' : Generator) : Prop where
  table : g.symbols.Lengthens x g'.symbols
  rows : g'.definitions.map (·.row) = g.definitions.map (·.row)

/-- A property of names and of the rows of open definitions, where new rows have this name. -/
def Titular (x : String) (I : Generator → Prop) : Prop :=
  ∀ ⦃g g' : Generator⦄, I g → Retains x g g' → I g'

/-- A row has a name. -/
def Named (row : Nat) (x : String) (g : Generator) : Prop := g.symbols.name? row = some x

/-- The innermost definition is on a row with a name. -/
def Headed (x : String) (g : Generator) : Prop :=
  ∃ d rest, g.definitions = d :: rest ∧ Named d.row x g

theorem Retains.refl (x : String) (g : Generator) : Retains x g g := ⟨.refl x _, rfl⟩

theorem Retains.trans {x : String} {g g' g'' : Generator} (h : Retains x g g')
    (h' : Retains x g' g'') : Retains x g g'' :=
  ⟨h.table.trans h'.table, h'.rows.trans h.rows⟩

/-- What a step retains, more of them retain. -/
theorem titular_retains (x : String) (g : Generator) : Titular x (Retains x g) := fun _ _ h h' =>
  h.trans h'

theorem titular_headed (x y : String) : Titular y (Headed x) := by
  rintro g g' ⟨d, rest, hd, hx⟩ h
  have hrows := h.rows
  rw [hd, List.map_cons] at hrows
  obtain ⟨d', rest', hd', hrow, -⟩ := List.map_eq_cons_iff.1 hrows
  have hx' : g'.symbols.name? d.row = some x := h.table.name? hx
  exact ⟨d', rest', hd', show g'.symbols.name? d'.row = some x from hrow ▸ hx'⟩

/-- Actions that neither begin nor end a definition. -/
def keepsTitles : Action → Bool
  | .enterFunction | .exitFunction | .checkOverload => false
  | _ => true

namespace Titular

variable {I : Generator → Prop} {x : String} {row line : Nat}

/-- What leaves the table alone, and the rows of the open definitions. -/
theorem same (h : Titular x I) {g g' : Generator} (hg : I g) (hs : g'.symbols = g.symbols)
    (hd : g'.definitions.map (·.row) = g.definitions.map (·.row)) : I g' :=
  h hg ⟨hs ▸ .refl x _, hd⟩

/-- What leaves the definitions alone, and rows their names. -/
theorem table (h : Titular x I) {g : Generator} (hg : I g) {t : SymbolTable}
    (ht : g.symbols.Lengthens x t) : I { g with symbols := t } := h hg ⟨ht, rfl⟩

theorem rows_mapDefinition {g : Generator} {f : Definition → Definition}
    (hf : ∀ d, (f d).row = d.row) :
    (g.mapDefinition f).definitions.map (·.row) = g.definitions.map (·.row) := by
  rw [Generator.mapDefinition]
  cases g.definitions with
  | nil => rfl
  | cons d rest => exact congrArg (· :: rest.map (·.row)) (hf d)

/-- Operands and code have nothing to do with it. -/
theorem aloof (h : Titular x I) : Aloof I where
  aside hg hs _ hd _ _ := h.same hg hs (congrArg _ hd)
  append _ hg _ := h.same hg rfl rfl
  filled _ _ hg := h.same hg rfl rfl
  withTemp hg _ := h.same hg rfl rfl
  dropTemp _ hg := h.same hg rfl rfl
  mapDefinition hg hr _ _ := h.same hg rfl (rows_mapDefinition hr)
  calls _ hg := h.same hg rfl rfl

theorem onMemory (h : Titular x I) {α : Type} {op : Memory → Except MemoryError (α × Memory)} :
    Upholds I (onMemory op) := fun _ hg => ends_onMemory.2 fun _ _ _ => h.same hg rfl rfl

theorem mapDefinition (h : Titular x I) {f : Definition → Definition}
    (hf : ∀ d, (f d).row = d.row) : Upholds I (modify (·.mapDefinition f)) :=
  upholds_modify fun _ hg => h.same hg rfl (rows_mapDefinition hf)

section Names

theorem rowFor (h : Titular x I) {reuse : Meaning → Bool} :
    Upholds I (modifyGet (·.rowFor x reuse)) :=
  upholds_modifyGet fun _ hg => h.table hg SymbolTable.lengthens_rowFor

theorem setMeaning (h : Titular x I) {m : Meaning} : Upholds I (modify (·.setMeaning row m)) :=
  upholds_modify fun _ hg => h.table hg SymbolTable.lengthens_setMeaning

theorem enterLoop (h : Titular x I) : Upholds I (modify (·.enterScope .loop)) :=
  upholds_modify fun _ hg => h.table hg SymbolTable.lengthens_enterLoop

theorem leaveScope (h : Titular x I) : Upholds I (modify (·.leaveScope)) :=
  upholds_modify fun _ hg => h.table hg SymbolTable.lengthens_leaveScope

theorem bindFresh (h : Titular x I) : Upholds I (bindFresh x) :=
  upholds_bind h.rowFor fun _ => upholds_bind h.onMemory fun _ =>
    upholds_bind h.setMeaning fun _ => upholds_pure _

theorem readName (h : Titular x I) : Upholds I (readName x) := by
  refine upholds_bind upholds_get fun g => ?_
  split
  · exact upholds_bind (upholds_pure _) fun _ => h.aloof.push
  · exact upholds_bind h.bindFresh fun _ => h.aloof.push

theorem assignTo (h : Titular x I) : Upholds I (assignTo x) := by
  refine upholds_bind upholds_get fun g => ?_
  split
  · exact upholds_bind (upholds_pure _) fun _ => h.aloof.push
  · exact upholds_bind h.bindFresh fun _ => h.aloof.push

theorem storeItem (h : Titular x I) : Upholds I (storeItem line) :=
  upholds_bind h.aloof.takeValue fun _ => upholds_bind h.onMemory fun _ => h.aloof.emit

theorem bindGlobal (h : Titular x I) : Upholds I (bindGlobal x line) := by
  refine upholds_bind upholds_get fun g => ?_
  split
  · exact upholds_pure _
  · split
    · exact h.aloof.report
    · exact upholds_bind h.rowFor fun _ => h.setMeaning

end Names

section Loops

theorem loopRecord (h : Titular x I) : Upholds I loopRecord := by
  refine upholds_bind upholds_get fun g => ?_
  dsimp only
  split
  · exact upholds_defect
  · split
    · exact upholds_pure _
    · exact upholds_bind h.setMeaning fun _ => upholds_pure _
    · exact upholds_defect

theorem startLoop (h : Titular x I) : Upholds I startLoop :=
  upholds_bind upholds_get fun _ => upholds_bind h.loopRecord fun _ =>
    upholds_bind h.setMeaning fun _ => h.enterLoop

theorem endLoop (h : Titular x I) : Upholds I endLoop := by
  refine upholds_bind h.aloof.heldSlot fun slot => upholds_bind h.aloof.pop fun condition =>
    upholds_bind h.loopRecord fun p => ?_
  dsimp only
  split
  · exact upholds_bind h.setMeaning fun _ => upholds_bind h.aloof.settleLoop fun _ => h.leaveScope
  · exact h.leaveScope

theorem leaveLoop (h : Titular x I) {outside : SemanticFault}
    {add : LoopRecord → Nat → LoopRecord} : Upholds I (leaveLoop line outside add) := by
  refine upholds_bind upholds_get fun g => ?_
  dsimp only
  split
  · exact upholds_bind h.onMemory fun _ => upholds_bind h.loopRecord fun _ => h.setMeaning
  · exact h.aloof.report

end Loops

section Functions

theorem addParameter (h : Titular x I) : Upholds I (addParameter x) :=
  upholds_bind h.bindFresh fun _ => h.mapDefinition fun _ => rfl

theorem giveMeaning (h : Titular x I) {change : Meaning → Except MeaningError Meaning} :
    Upholds I (giveMeaning row change) := by
  refine upholds_bind upholds_get fun g => ?_
  split
  · exact upholds_pure _
  · split
    · exact h.setMeaning
    · exact upholds_defect

theorem publish (h : Titular x I) : Upholds I publish := by
  refine upholds_bind upholds_get fun g => ?_
  split
  · exact upholds_pure _
  · split
    · exact upholds_pure _
    · exact upholds_bind (h.mapDefinition fun _ => rfl) fun _ => h.giveMeaning

theorem returnWith (h : Titular x I) : Upholds I (returnWith line) := by
  refine upholds_bind h.aloof.takeValue fun value => upholds_bind h.aloof.returningFrom fun row => ?_
  split
  · exact upholds_pure _
  · exact upholds_bind Remote.functionOn fun _ => upholds_bind h.aloof.emitReturn fun _ =>
      h.setMeaning

end Functions

/-- **Actions leave names and open definitions alone,** but for those that begin or end a definition
and the one that retires functions. -/
theorem perform (h : Titular x I) {a : Action} (ha : keepsTitles a = true) {line : Nat} :
    Upholds I (perform a x line) := by
  cases a with
  | pushId => exact h.readName
  | pushTarget => exact h.assignTo
  | listItem => exact h.storeItem
  | global => exact h.bindGlobal
  | breakLoop => exact h.leaveLoop
  | continueLoop => exact h.leaveLoop
  | loopBegin => exact h.startLoop
  | loopEnd => exact h.endLoop
  | param => exact h.addParameter
  | paramsDone => exact h.publish
  | returnValue => exact h.returnWith
  | enterFunction | exitFunction | checkOverload => cases ha
  | _ => exact h.aloof.perform rfl

end Titular

/-- **All other actions retain names and open definitions.** -/
theorem retains_perform {a : Action} (ha : keepsTitles a = true) {g : Generator} {x : String}
    {line : Nat} : Ends (perform a x line) g fun _ g' => Retains x g g' :=
  (titular_retains x g).perform ha g (.refl x g)

section Functions

variable {g : Generator} {row : Nat} {x name : String} {a : Action} {line : Nat}

/-- A definition begins on a row with its name. -/
theorem headed_startFunction :
    Ends (startFunction x) g fun _ g' => Headed x g' := by
  simp only [startFunction, ends_bind, ends_onMemory, ends_modifyGet, ends_get, ends_modify]
  intro _ _ _ _ _ _ _ _ _
  exact ⟨_, _, rfl, (SymbolTable.rowFor_spec _ x .identifier (· = .unused)).1⟩

theorem lengthens_startFunction :
    Ends (startFunction x) g fun _ g' => g.symbols.Lengthens x g'.symbols := by
  simp only [startFunction, ends_bind, ends_onMemory, ends_modifyGet, ends_get, ends_modify]
  intro _ _ _ _ _ _ _ _ _
  exact SymbolTable.lengthens_enterBody

theorem lengthens_endFunction :
    Ends endFunction g fun _ g' => g.symbols.Lengthens x g'.symbols := by
  have h : Titular x fun g' => g.symbols.Lengthens x g'.symbols := fun _ _ hg h =>
    hg.trans h.table
  refine upholds_bind h.publish (fun _ => upholds_bind upholds_get fun g₁ => ?_) g (.refl x _)
  split
  · exact upholds_pure _
  · rename_i d rest hdefs
    -- only the list of definitions changes
    have hended : Upholds (fun g' => g.symbols.Lengthens x g'.symbols)
        (modify ({ · with definitions := rest })) := upholds_modify fun _ hg => hg
    have hlast : Upholds (fun g' => g.symbols.Lengthens x g'.symbols)
        (modify ({ · with lastDefined := some d.row })) := upholds_modify fun _ hg => hg
    refine upholds_bind hended fun _ => ?_
    have htail : Upholds (fun g' => g.symbols.Lengthens x g'.symbols) (do
        settle (some d.aroundSlot) (.jump (← get).programNext)
        modify (·.leaveScope)
        modify ({ · with lastDefined := some d.row })) :=
      upholds_bind upholds_get fun _ => upholds_bind h.aloof.settle fun _ =>
        upholds_bind h.leaveScope fun _ => hlast
    split
    · exact upholds_bind Remote.functionOn fun _ => upholds_bind h.aloof.emitReturn fun _ => htail
    · exact htail

/-- **A row keeps its name and its scope,** whatever is defined. -/
theorem lengthens_perform (ha : a ≠ .checkOverload) :
    Ends (perform a x line) g fun _ g' => g.symbols.Lengthens x g'.symbols := by
  cases hkeeps : keepsTitles a with
  | true => exact (retains_perform hkeeps).mono fun _ _ h => h.table
  | false =>
    cases a with
    | enterFunction => exact lengthens_startFunction
    | exitFunction => exact lengthens_endFunction
    | checkOverload => exact absurd rfl ha
    | _ => cases hkeeps

theorem named_perform (ha : a ≠ .checkOverload) : Upholds (Named row name) (perform a x line) :=
  fun _ hg => (lengthens_perform ha).mono fun _ _ h => h.name? hg

end Functions

end OnePass.Emission
