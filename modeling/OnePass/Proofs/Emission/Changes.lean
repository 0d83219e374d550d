import OnePass.Proofs.Emission.Aloof
import OnePass.Proofs.Emission.Bodies
import OnePass.Proofs.Emission.WriteOnce
import OnePass.Proofs.Names.Lookup
import OnePass.Proofs.Names.Sight
import OnePass.Proofs.Names.Usable

/-!
# What actions change of names, cells and definitions

Whatever an action does to the symbol table, to the variable cells and to the definitions is made
up of a few single changes, and so is what it has done when it fails. What each of them keeps
outlasts every action, in whatever order they come and with whatever lexemes.

* `Generator.Like`: states that differ in operands and code only.
* `Change`: **one change** that an action with a lexeme makes. `Changes`: one after another.
* `Changes.ensures_bindFresh`, …, `Changes.preserves_retireRivals`: the steps that do more than
  compute.
* `changes_perform`, `changes_callMain`: **all that an action leaves** comes from such changes.
-/

namespace OnePass.Emission

open Grammar (Action)
open Lexical (TokenKind)
open Names Target

/-- **A state with the same names, cells and headers.** Operands, errors, code and temporaries may
differ, and what definitions record of their bodies. -/
structure Generator.Like (g g' : Generator) : Prop where
  symbols : g'.symbols = g.symbols
  memory : g'.memory =
    { g.memory with program := g'.memory.program, tempNext := g'.memory.tempNext }
  definitions : g'.definitions.map (fun d => (d.row, d.header)) =
    g.definitions.map fun d => (d.row, d.header)

/-- **One change of names, cells and definitions** by an action that has the lexeme `x`. -/
inductive Change (x : String) (g : Generator) : Generator → Prop
  | aside {g' : Generator} (h : g.Like g') : Change x g g'
  | appendRow (kind : TokenKind) : Change x g { g with symbols := (g.symbols.appendRow x kind).2 }
  | enterScope (region : Region) : Change x g (g.enterScope region)
  | leaveScope : Change x g g.leaveScope
  /-- A cell is handed out, for an action that fails after it. -/
  | takeCell {cell : Nat} {m : Memory} (h : g.memory.takeCell = .ok (cell, m)) :
      Change x g { g with memory := m }
  | takeNextCell {cell : Nat} {m : Memory} (h : g.memory.takeNextCell = .ok (cell, m)) :
      Change x g { g with memory := m }
  /-- A name gets a cell. -/
  | bind {row cell : Nat} {m : Memory} (hn : g.symbols.name? row = some x)
      (hv : (g.symbols.meaning? row).any Meaning.isVariable = true)
      (h : g.memory.takeCell = .ok (cell, m)) :
      Change x g ({ g with memory := m }.setMeaning row (.variable (some cell)))
  /-- A name gets the cell of another variable. -/
  | bindTo {row other cell : Nat} (hn : g.symbols.name? row = some x)
      (hv : (g.symbols.meaning? row).any Meaning.isVariable = true)
      (h : g.symbols.cell? other = some cell) :
      Change x g (g.setMeaning row (.variable (some cell)))
  | recordLoops {row : Nat} (record : LoopRecord) (hn : g.symbols.name? row = some loopKeyword)
      (h : (g.symbols.meaning? row).any (!·.isFunction) = true) :
      Change x g (g.setMeaning row (.loops record))
  /-- A definition begins, with cells for its result and the slot to return to. -/
  | openHeader {d : Definition} {result returnCell start : Nat} {m m' : Memory}
      (hn : g.symbols.name? d.row = some x) (hu : g.symbols.meaning? d.row = some .unused)
      (h : g.memory.takeCell = .ok (result, m)) (h' : m.takeCell = .ok (returnCell, m'))
      (hd : d.header = some (.fresh result returnCell start)) :
      Change x g { g with memory := m', definitions := d :: g.definitions }
  | addParam {row cell : Nat} (h : g.symbols.cell? row = some cell) :
      Change x g (g.mapDefinition (·.addParam cell))
  /-- A header is given up, for a function that cannot be put on its row. -/
  | dropHeader : Change x g (g.mapDefinition ({ · with header := none }))
  /-- A function is put on its row. -/
  | publish {d : Definition} {rest : List Definition} {info : FunctionInfo} (start : Nat)
      (hd : g.definitions = d :: rest) (hi : d.header = some info)
      (hv : (g.symbols.meaning? d.row).any Meaning.isVariable = true) :
      Change x g ((g.mapDefinition ({ · with header := none })).setMeaning d.row
        (.function { info with start := start }))
  | noteValue {row : Nat} {info : FunctionInfo} (h : g.symbols.function? row = some info) :
      Change x g (g.setMeaning row (.function { info with returnsValue := true }))
  | closeDefinition {d : Definition} {rest : List Definition} (hd : g.definitions = d :: rest) :
      Change x g { g with definitions := rest }
  | retire {row : Nat} (h : (g.symbols.function? row).isSome = true) :
      Change x g (g.retireFunction row)

/-- Any number of changes, one after another. -/
abbrev Changes (x : String) : Generator → Generator → Prop := Relation.ReflTransGen (Change x)

variable {x : String} {line : Nat} {g₀ g g' : Generator}

theorem Changes.aside (h : Changes x g₀ g) (hlike : g.Like g') : Changes x g₀ g' :=
  h.tail (.aside hlike)

/-- What states of the same names, cells and headers share has nothing to do with operands and
code. -/
theorem aloof_of_like {I : Generator → Prop} (h : ∀ {g g'}, I g → g.Like g' → I g') : Aloof I where
  aside {g g'} hg hs hm hd _ _ := h hg ⟨hs, by rw [hm], by rw [hd]⟩
  append _ hg _ := h hg ⟨rfl, rfl, rfl⟩
  filled _ _ hg := h hg ⟨rfl, rfl, rfl⟩
  withTemp hg _ := h hg ⟨rfl, rfl, rfl⟩
  dropTemp {g} cell hg := by
    refine h hg ⟨rfl, ?_, rfl⟩
    unfold Generator.dropTemp Memory.dropTemp
    split <;> rfl
  mapDefinition {g f} hg hrow _ hheader := by
    refine h hg ⟨rfl, rfl, ?_⟩
    unfold Generator.mapDefinition
    cases g.definitions with
    | nil => rfl
    | cons d rest => rw [List.map_cons, List.map_cons, hrow, hheader]
  calls _ hg := h hg ⟨rfl, rfl, rfl⟩

/-- **Operands and code have nothing to do with such changes.** -/
theorem aloof_changes : Aloof (Changes x g₀) := aloof_of_like Changes.aside

namespace Changes

section Names

/-- A row that a name is given: it carries the name, and is a variable. -/
theorem rowFor (h : Changes x g₀ g) (reuse : Meaning → Bool) :
    Changes x g₀ (g.rowFor x reuse).2 ∧
      (g.rowFor x reuse).2.symbols.name? (g.rowFor x reuse).1 = some x ∧
      ∃ m, (g.rowFor x reuse).2.symbols.meaning? (g.rowFor x reuse).1 = some m ∧
        (reuse m = true ∨ m = .unused) := by
  obtain ⟨hname, hcases⟩ := g.symbols.rowFor_spec x .identifier reuse
  refine ⟨?_, hname, g.symbols.meaning?_rowFor x .identifier reuse⟩
  change Changes x g₀ { g with symbols := (g.symbols.rowFor x .identifier reuse).2 }
  rcases hcases with ⟨heq, -⟩ | heq
  · rw [heq]
    exact h
  · rw [heq]
    exact h.tail (.appendRow .identifier)

/-- **A name gets a cell of its own.** -/
theorem ensures_bindFresh (h : Changes x g₀ g) :
    Ensures (Changes x g₀) (bindFresh x) g fun cell g' =>
      Changes x g₀ g' ∧ ∃ row, g'.symbols.cell? row = some cell := by
  obtain ⟨h₁, hn, m, hm, hv⟩ := h.rowFor Meaning.isVariable
  refine ensures_bind (ensures_modifyGet ?_)
  generalize g.rowFor x Meaning.isVariable = found at h₁ hn hm ⊢
  obtain ⟨row, g₁⟩ := found
  have hvariable : (g₁.symbols.meaning? row).any Meaning.isVariable = true := by
    rw [hm, Option.any_some]
    rcases hv with hv | rfl
    · exact hv
    · rfl
  refine ensures_bind (ensures_onMemory h₁ fun cell m' hcell => ?_)
  refine ensures_bind (ensures_modify (ensures_pure ⟨h₁.tail (.bind hn hvariable hcell), row, ?_⟩))
  change (g₁.symbols.setMeaning row (.variable (some cell))).cell? row = some cell
  rw [SymbolTable.cell?, SymbolTable.meaning?_setMeaning, if_pos rfl, hm]
  rfl

/-- A name is read or assigned: it has a cell, or gets one. -/
theorem preserves_named (found : Generator → Option Nat) :
    Preserves (Changes x g₀) (do
      let cell ← match found (← get) with
        | some cell => pure cell
        | none => bindFresh x
      push (.direct cell)) := by
  refine preserves_bind preserves_get fun g => ?_
  dsimp only
  cases found g with
  | some cell => exact preserves_bind (preserves_pure cell) fun _ => aloof_changes.preserves_push
  | none =>
    refine preserves_bind (fun g' h => ?_) fun _ => aloof_changes.preserves_push
    exact (ensures_bindFresh h).mono (fun _ _ h => h.1) fun _ h => h

theorem preserves_readName : Preserves (Changes x g₀) (readName x) :=
  preserves_named fun g => g.readCell? x

theorem preserves_assignTo : Preserves (Changes x g₀) (assignTo x) :=
  preserves_named fun g => g.ownCell? x

theorem preserves_storeItem : Preserves (Changes x g₀) (storeItem line) :=
  preserves_bind aloof_changes.preserves_takeValue fun _ =>
    preserves_bind (fun _ h => ensures_onMemory h fun _ _ hm => h.tail (.takeNextCell hm)) fun _ =>
      aloof_changes.preserves_emit

/-- **A name is bound to a global one.** -/
theorem preserves_bindGlobal : Preserves (Changes x g₀) (bindGlobal x line) := by
  refine fun g h => ensures_bind (ensures_get ?_)
  split
  · exact h
  · split
    · exact aloof_changes.preserves_report g h
    · rename_i cell hcell
      obtain ⟨other, -, hother⟩ := Option.bind_eq_some_iff.1 hcell
      obtain ⟨h₁, hn, m, hm, hv⟩ := h.rowFor Meaning.isVariable
      have hother₁ : (g.rowFor x Meaning.isVariable).2.symbols.cell? other = some cell :=
        SymbolTable.rowFor_induction (P := fun t => t.cell? other = some cell) hother
          (SymbolTable.cell?_appendRow.trans hother)
      refine ensures_bind (ensures_modifyGet (ensures_modify (h₁.tail (.bindTo hn ?_ hother₁))))
      rw [hm, Option.any_some]
      rcases hv with hv | rfl
      · exact hv
      · rfl

end Names

section Loops

/-- **The record of the loops** is on a row of their keyword. -/
theorem ensures_loopRecord (h : Changes x g₀ g) :
    Ensures (Changes x g₀) loopRecord g fun found g' => Changes x g₀ g' ∧
      g'.symbols.name? found.1 = some loopKeyword ∧
        (g'.symbols.meaning? found.1).any (!·.isFunction) = true := by
  refine ensures_bind (ensures_get ?_)
  dsimp only
  split
  · exact ensures_defect h
  · rename_i row hrow
    have hn := SymbolTable.name?_of_latestIn hrow
    split
    · rename_i record hm
      exact ensures_pure ⟨h, hn, by rw [hm]; rfl⟩
    · rename_i cell hm
      refine ensures_bind (ensures_modify (ensures_pure ?_))
      refine ⟨h.tail (.recordLoops .empty hn ?_), ?_, ?_⟩
      · rw [hm]
        rfl
      · exact SymbolTable.name?_setMeaning.trans hn
      · change ((g.symbols.setMeaning row (.loops .empty)).meaning? row).any _ = true
        rw [SymbolTable.meaning?_setMeaning, if_pos rfl, hm]
        rfl
    · exact ensures_defect h

theorem preserves_startLoop : Preserves (Changes x g₀) startLoop := by
  refine fun g h => ensures_bind (ensures_get (ensures_bind ?_))
  refine (ensures_loopRecord h).mono ?_ fun _ h => h
  rintro ⟨row, record⟩ g₁ ⟨h₁, hn, hm⟩
  exact ensures_bind (ensures_modify (ensures_modify
    ((h₁.tail (.recordLoops _ hn hm)).tail (.enterScope .loop))))

theorem preserves_leaveScope : Preserves (Changes x g₀) (modify (·.leaveScope)) :=
  preserves_modify fun _ h => h.tail .leaveScope

theorem preserves_endLoop : Preserves (Changes x g₀) endLoop := by
  refine preserves_bind aloof_changes.preserves_heldSlot fun slot =>
    preserves_bind aloof_changes.preserves_pop fun condition g h => ensures_bind ?_
  refine (ensures_loopRecord h).mono ?_ fun _ h => h
  rintro ⟨row, record⟩ g₁ ⟨h₁, hn, hm⟩
  dsimp only
  split
  · refine ensures_bind (ensures_modify ?_)
    exact preserves_bind aloof_changes.preserves_settleLoop (fun _ => preserves_leaveScope) _
      (h₁.tail (.recordLoops _ hn hm))
  · exact preserves_leaveScope g₁ h₁

theorem preserves_leaveLoop {outside : SemanticFault} {add : LoopRecord → Nat → LoopRecord} :
    Preserves (Changes x g₀) (leaveLoop line outside add) := by
  refine preserves_bind preserves_get fun g => ?_
  split
  · refine preserves_bind aloof_changes.preserves_reserve fun slot g₁ h => ensures_bind ?_
    refine (ensures_loopRecord h).mono ?_ fun _ h => h
    rintro ⟨row, record⟩ g₂ ⟨h₂, hn, hm⟩
    exact h₂.tail (.recordLoops _ hn hm)
  · exact aloof_changes.preserves_report

end Loops

section Definitions

variable {d : Definition} {rest : List Definition} {row : Nat}

/-- **A definition begins.** The first of its two cells is lost if there is no second. -/
theorem preserves_startFunction : Preserves (Changes x g₀) (startFunction x) := by
  refine preserves_bind aloof_changes.preserves_reserve fun aroundSlot g h => ?_
  refine ensures_bind (ensures_onMemory h fun result m hresult => ?_)
  refine ensures_bind (ensures_onMemory (h.tail (.takeCell hresult)) fun returnCell m' hreturn => ?_)
  refine ensures_bind (ensures_modifyGet (ensures_bind (ensures_get ?_)))
  refine ensures_bind (ensures_modify (ensures_modify ?_))
  obtain ⟨h₁, hn, meaning, hm, hu⟩ := h.rowFor (· = .unused)
  have hunused : (g.rowFor x (· = .unused)).2.symbols.meaning? (g.rowFor x (· = .unused)).1 =
      some .unused := by
    rw [hm]
    rcases hu with hu | rfl
    · rw [decide_eq_true_eq] at hu
      rw [hu]
    · rfl
  exact (h₁.tail (.enterScope (.body _))).tail
    (.openHeader (d := ⟨_, _, aroundSlot, _, 0, false⟩) hn hunused hresult hreturn rfl)

theorem preserves_addParameter : Preserves (Changes x g₀) (addParameter x) := by
  refine fun g h => ensures_bind ((ensures_bindFresh h).mono ?_ fun _ h => h)
  rintro cell g₁ ⟨h₁, row, hcell⟩
  exact h₁.tail (.addParam hcell)

/-- **A function is put on its row,** or its header is given up. -/
theorem preserves_publish : Preserves (Changes x g₀) publish := by
  refine fun g h => ensures_bind (ensures_get ?_)
  split
  · exact h
  · rename_i d rest hd
    split
    · exact h
    · rename_i info hi
      -- the header goes first, so it is lost if the row turns out to be taken
      have hdrop := h.tail .dropHeader
      refine ensures_bind (ensures_modify (ensures_bind (ensures_get ?_)))
      dsimp only
      split
      · exact hdrop
      · rename_i current hcurrent
        have hcurrent : g.symbols.meaning? d.row = some current := hcurrent
        unfold Meaning.becomeFunction
        split
        · rename_i changed hchanged
          split at hchanged
          · rename_i hv
            cases hchanged
            refine h.tail (.publish g.programNext hd hi ?_)
            rw [hcurrent]
            exact hv
          · cases hchanged
        · exact hdrop

/-- **A return with a value** is noted on the row of its function. -/
theorem preserves_returnWith : Preserves (Changes x g₀) (returnWith line) := by
  refine preserves_bind aloof_changes.preserves_takeValue fun value =>
    preserves_bind aloof_changes.preserves_returningFrom fun row? => ?_
  split
  · exact preserves_pure ()
  · rename_i row
    refine fun g h => ensures_bind ?_
    refine (ends_functionOn.ensures atomic_functionOn h).mono ?_ fun _ h => h
    rintro info g ⟨rfl, hf⟩
    -- the code of the return leaves the table alone, so the row is the function's all the while
    have haloof : Aloof fun g' => Changes x g₀ g' ∧ g'.symbols = g.symbols :=
      aloof_changes.and (.of_symbols (P := (· = g.symbols)))
    refine ensures_bind ((haloof.preserves_emitReturn g ⟨h, rfl⟩).mono ?_ fun _ h => h.1)
    rintro _ g₁ ⟨h₁, hsame⟩
    exact h₁.tail (.noteValue (hsame ▸ hf))

theorem preserves_endFunction : Preserves (Changes x g₀) endFunction := by
  refine preserves_bind preserves_publish fun _ g h => ensures_bind (ensures_get ?_)
  split
  · exact h
  · rename_i d rest hd
    have hclose : Preserves (Changes x g₀) (get >>= fun g' : Generator =>
        settle (some d.aroundSlot) (.jump g'.programNext) >>= fun _ =>
          modify (·.leaveScope) >>= fun _ => modify ({ · with lastDefined := some d.row })) :=
      preserves_bind preserves_get fun _ => preserves_bind aloof_changes.preserves_settle fun _ =>
        preserves_bind preserves_leaveScope fun _ =>
          preserves_modify fun _ h => h.aside ⟨rfl, rfl, rfl⟩
    refine ensures_bind (ensures_modify ?_)
    have hrest := h.tail (.closeDefinition hd)
    dsimp only
    split
    · exact preserves_bind Remote.preserves_functionOn
        (fun _ => preserves_bind aloof_changes.preserves_emitReturn fun _ => hclose) _ hrest
    · exact hclose _ hrest

/-- **Rivals are retired,** which are functions all along. -/
theorem preserves_retireRivals : Preserves (Changes x g₀) (retireRivals line) := by
  refine fun g h => ensures_bind (ensures_get ?_)
  split
  · exact h
  · rename_i row hrow
    -- a rival is still a function when its turn comes: retiring others changes names only
    let I (g' : Generator) : Prop :=
      Changes x g₀ g' ∧ ∀ other ∈ g.rivals row, (g'.symbols.function? other).isSome = true
    have hstart : I { g with lastDefined := none } := by
      refine ⟨h.aside ⟨rfl, rfl, rfl⟩, fun other hother => ?_⟩
      unfold Generator.rivals at hother
      split at hother
      · have hmem := (List.mem_filter.1 hother).1
        exact (Bool.and_eq_true_iff.1 (List.mem_filter.1 hmem).2).2
      · exact absurd hother List.not_mem_nil
    have hloop : Preserves I ((g.rivals row).forM fun other => do
        report line (.redefined ((g.symbols.name? row).getD ""))
        modify (·.retireFunction other)) := by
      refine preserves_forM_mem fun other hother => preserves_bind ?_ fun _ => ?_
      · exact preserves_modify fun g' h' => ⟨h'.1.aside ⟨rfl, rfl, rfl⟩, h'.2⟩
      · refine preserves_modify fun g' h' => ⟨h'.1.tail (.retire (h'.2 other hother)), ?_⟩
        intro i hi
        change ((g'.symbols.retire other).function? i).isSome = true
        rw [SymbolTable.function?, SymbolTable.meaning?_retire]
        exact h'.2 i hi
    exact ensures_bind (ensures_modify
      ((hloop _ hstart).mono (fun _ _ h => h.1) fun _ h => h.1))

end Definitions

/-- **All that an action does is made up of such changes,** wherever it stops. One that uses no name
can be taken to have any lexeme. -/
theorem preserves_perform (a : Action) {y : String} (hx : a.behind? = some .identifier → y = x) :
    Preserves (Changes x g₀) (perform a y line) := by
  by_cases haside : isAside a = true
  · exact aloof_changes.preserves_perform haside
  cases a with
  | pushId => exact hx rfl ▸ preserves_readName
  | pushTarget => exact hx rfl ▸ preserves_assignTo
  | listItem => exact preserves_storeItem
  | global => exact hx rfl ▸ preserves_bindGlobal
  | breakLoop => exact preserves_leaveLoop
  | continueLoop => exact preserves_leaveLoop
  | loopBegin => exact preserves_startLoop
  | loopEnd => exact preserves_endLoop
  | enterFunction => exact hx rfl ▸ preserves_startFunction
  | param => exact hx rfl ▸ preserves_addParameter
  | paramsDone => exact preserves_publish
  | returnValue => exact preserves_returnWith
  | exitFunction => exact preserves_endFunction
  | checkOverload => exact preserves_retireRivals
  | _ => exact absurd rfl haside

end Changes

/-- What is kept where a step ends and where it fails is true of the state that it leaves. -/
theorem Ensures.stateAfter {α : Type} {I : Generator → Prop} {y : Emit α}
    (h : Ensures I y g fun _ => I) : I (stateAfter y g) := by
  unfold Ensures at h
  unfold Emission.stateAfter
  split <;> rename_i heq <;> rw [heq] at h <;> exact h

theorem Preserves.stateAfter {α : Type} {I : Generator → Prop} {y : Emit α} (h : Preserves I y)
    (hg : I g) : I (stateAfter y g) := (h g hg).stateAfter

/-- **From one state to the next** an action makes such changes only. -/
theorem changes_perform (a : Action) (x : String) (line : Nat) (g : Generator) :
    Changes x g (stateAfter (perform a x line) g) :=
  (Changes.preserves_perform a fun _ => rfl).stateAfter .refl

/-- So does the end of a program. -/
theorem changes_callMain (x : String) (line : Nat) (g : Generator) :
    Changes x g (stateAfter (callMain line) g) := aloof_changes.preserves_callMain.stateAfter .refl

end OnePass.Emission
