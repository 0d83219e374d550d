import OnePass.Proofs.Emission.Aloof
import OnePass.Proofs.Names.Sight

/-!
# Properties that do not mind rows without cells

Functions and the record of the loops stand on rows that no variable has a cell on. What does
not mind the meanings of such rows is kept by whatever happens to loops and definitions, up to
the scopes that these open and close.

* `SymbolTable.ReservesLoops`: no variable is on a row of the loop keyword.
* `Indifferent`: a property that does not mind rows without cells.
* `Indifferent.startLoop`, `Indifferent.endLoop`, `Indifferent.leaveLoop`: loops.
* `Indifferent.publish`, `Indifferent.returnWith`, `Indifferent.endFunction`: definitions.
-/

namespace OnePass.Names

/-- **No variable is on a row of the loop keyword.** -/
def SymbolTable.ReservesLoops (t : SymbolTable) : Prop :=
  ∀ row, t.name? row = some loopKeyword → t.cell? row = none

end OnePass.Names

namespace OnePass.Emission

open Names Target

/-- A definition stays open while its function is put on its row. -/
theorem ends_publish_definitions {g : Generator} (hd : g.definitions ≠ []) :
    Ends publish g fun _ g' => g'.definitions ≠ [] := by
  simp only [publish, ends_bind, ends_get]
  split
  · exact absurd ‹_› hd
  · rename_i d rest hdefs
    split
    · exact (ends_pure _).2 hd
    · have hmap : (g.mapDefinition fun d => { d with header := none }).definitions ≠ [] := by
        rw [Generator.mapDefinition, hdefs]
        exact List.cons_ne_nil _ _
      simp only [ends_bind, ends_modify, giveMeaning, ends_get]
      split
      · exact (ends_pure _).2 hmap
      · split
        · exact ends_modify.2 hmap
        · exact ends_defect

/-- **A property that does not mind rows without cells,** whatever they mean, nor which definitions
are open. -/
structure Indifferent (I : Generator → Prop) : Prop extends Aloof I where
  setMeaning : ∀ {g : Generator} {row : Nat} {m : Meaning}, I g → g.symbols.cell? row = none →
    m.cell? = none → I (g.setMeaning row m)
  definitions : ∀ {g : Generator} (definitions : List Definition), I g →
    I { g with definitions := definitions }

namespace Indifferent

variable {I : Generator → Prop} {g : Generator} {line : Nat} {outside : SemanticFault}
  {add : LoopRecord → Nat → LoopRecord}

/-- What only has to do with the table. -/
theorem of_symbols {P : SymbolTable → Prop}
    (h : ∀ {t : SymbolTable} {row : Nat} {m : Meaning}, P t → t.cell? row = none →
      m.cell? = none → P (t.setMeaning row m)) : Indifferent fun g => P g.symbols where
  toAloof := .of_symbols
  setMeaning hg hrow hm := h hg hrow hm
  definitions _ hg := hg

/-- A row without a cell that is given a meaning has none behind that. -/
theorem cell?_setMeaning {t : SymbolTable} {row : Nat} {m : Meaning} (hm : m.cell? = none) :
    (t.setMeaning row m).cell? row = none := by
  rw [SymbolTable.cell?_setMeaning, if_pos rfl]
  cases t.meaning? row with
  | none => rfl
  | some _ => exact hm

section Loops

/-- The loops are recorded on a row without a cell. -/
theorem loopRecord (h : Indifferent I) (hg : I g) (hr : g.symbols.ReservesLoops) :
    Ends loopRecord g fun p g' => I g' ∧ g'.symbols.cell? p.1 = none := by
  simp only [Emission.loopRecord, ends_bind, ends_get]
  split
  · exact ends_defect
  · rename_i row hrow
    have hnone := hr row (SymbolTable.name?_of_latestIn hrow)
    split
    · exact (ends_pure _).2 ⟨hg, hnone⟩
    · simp only [ends_bind, ends_modify, ends_pure]
      exact ⟨h.setMeaning hg hnone rfl, cell?_setMeaning rfl⟩
    · exact ends_defect

theorem startLoop (h : Indifferent I) (hg : I g) (hr : g.symbols.ReservesLoops) :
    Ends startLoop g fun _ g' => ∃ g₁, I g₁ ∧ g' = g₁.enterScope .loop := by
  simp only [Emission.startLoop, ends_bind, ends_get, ends_modify]
  refine (h.loopRecord hg hr).mono ?_
  rintro ⟨row, record⟩ g₁ ⟨h₁, hnone⟩
  exact ⟨_, h.setMeaning h₁ hnone rfl, rfl⟩

theorem endLoop (h : Indifferent I) (hg : I g) (hr : g.symbols.ReservesLoops) :
    Ends endLoop g fun _ g' => ∃ g₁, I g₁ ∧ g' = g₁.leaveScope := by
  have haloof := h.toAloof.and (.of_symbols (P := SymbolTable.ReservesLoops))
  rw [Emission.endLoop, ends_bind]
  refine (haloof.heldSlot g ⟨hg, hr⟩).mono fun slot g₁ h₁ => ?_
  rw [ends_bind]
  refine (haloof.pop g₁ h₁).mono fun condition g₂ h₂ => ?_
  rw [ends_bind]
  refine (h.loopRecord h₂.1 h₂.2).mono ?_
  rintro ⟨row, record⟩ g₃ ⟨h₃, hnone⟩
  dsimp only
  split
  · simp only [ends_bind, ends_modify]
    exact (h.settleLoop _ (h.setMeaning h₃ hnone rfl)).mono fun _ g₄ h₄ => ⟨g₄, h₄, rfl⟩
  · exact ends_modify.2 ⟨g₃, h₃, rfl⟩

theorem leaveLoop (h : Indifferent I) (hg : I g)
    (hr : g.symbols.scopes.isLoop g.currentScope = true → g.symbols.ReservesLoops) :
    Ends (leaveLoop line outside add) g fun _ g' => I g' := by
  have haloof := h.toAloof.and (.of_symbols (P := SymbolTable.ReservesLoops))
  simp only [Emission.leaveLoop, ends_bind, ends_get]
  split
  · rename_i hloop
    rw [ends_bind]
    refine (haloof.reserve g ⟨hg, hr hloop⟩).mono fun slot g₁ h₁ => ?_
    rw [ends_bind]
    refine (h.loopRecord h₁.1 h₁.2).mono ?_
    rintro ⟨row, record⟩ g₂ ⟨h₂, hnone⟩
    exact ends_modify.2 (h.setMeaning h₂ hnone rfl)
  · exact h.report g hg

end Loops

section Functions

theorem giveMeaning (h : Indifferent I) (hg : I g) {row : Nat} {info : FunctionInfo}
    (hrow : g.symbols.cell? row = none) :
    Ends (giveMeaning row (·.becomeFunction info)) g fun _ g' => I g' := by
  simp only [Emission.giveMeaning, ends_bind, ends_get]
  split
  · exact (ends_pure _).2 hg
  · split
    · rename_i hchange
      unfold Meaning.becomeFunction at hchange
      split at hchange
      · cases hchange
        exact ends_modify.2 (h.setMeaning hg hrow rfl)
      · cases hchange
    · exact ends_defect

/-- A function is put on a row without a cell. -/
theorem publish (h : Indifferent I) (hg : I g)
    (hrow : ∀ d ∈ g.definitions, d.header.isSome → g.symbols.cell? d.row = none) :
    Ends publish g fun _ g' => I g' := by
  simp only [Emission.publish, ends_bind, ends_get]
  split
  · exact (ends_pure _).2 hg
  · rename_i d rest hdefs
    split
    · exact (ends_pure _).2 hg
    · rename_i info hinfo
      have hnone := hrow d (hdefs ▸ List.mem_cons_self) (by rw [hinfo]; rfl)
      simp only [ends_bind, ends_modify]
      exact h.giveMeaning (h.definitions _ hg) hnone

theorem returnWith (h : Indifferent I) (hg : I g) :
    Ends (returnWith line) g fun _ g' => I g' := by
  rw [Emission.returnWith, ends_bind]
  refine (h.takeValue g hg).mono fun value g₁ h₁ => ?_
  rw [ends_bind]
  refine (h.returningFrom g₁ h₁).mono fun row? g₂ h₂ => ?_
  split
  · exact (ends_pure ()).2 h₂
  · rename_i row
    simp only [ends_bind]
    refine ends_functionOn.mono ?_
    rintro info _ ⟨rfl, hf⟩
    have haloof := h.toAloof.and (.of_symbols (P := fun t => t.function? row = some info))
    refine (haloof.emitReturn _ ⟨h₂, hf⟩).mono fun _ g₃ h₃ => ?_
    exact ends_modify.2 (h.setMeaning h₃.1 (SymbolTable.cell?_of_function? h₃.2) rfl)

/-- **A definition ends** with its scope, if there is one. -/
theorem endFunction (h : Indifferent I) (hg : I g) (hne : g.definitions ≠ [])
    (hrow : ∀ d ∈ g.definitions, d.header.isSome → g.symbols.cell? d.row = none) :
    Ends endFunction g fun _ g' =>
      ∃ g₁ row, I g₁ ∧ g' = { g₁.leaveScope with lastDefined := some row } := by
  have hclose : ∀ g₁ slot row, I g₁ → Ends (settle slot (.jump g₁.programNext)) g₁ fun _ g₂ =>
      ∃ g₃ row', I g₃ ∧ { g₂.leaveScope with lastDefined := some row } =
        { g₃.leaveScope with lastDefined := some row' } := fun g₁ slot row h₁ =>
    (h.settle g₁ h₁).mono fun _ g₂ h₂ => ⟨g₂, row, h₂, rfl⟩
  rw [Emission.endFunction, ends_bind]
  refine ((h.publish hg hrow).and (ends_publish_definitions hne)).mono fun _ g₁ h₁ => ?_
  simp only [ends_bind, ends_get]
  split
  · exact absurd ‹_› h₁.2
  · rename_i d rest hdefs
    simp only [ends_bind, ends_modify]
    have h₂ := h.definitions rest h₁.1
    split
    · simp only [ends_bind, ends_get, ends_modify]
      refine ends_functionOn.mono ?_
      rintro info _ ⟨rfl, -⟩
      exact (h.emitReturn _ h₂).mono fun _ g₃ h₃ => hclose g₃ _ _ h₃
    · simp only [ends_bind, ends_get, ends_modify]
      exact hclose _ _ _ h₂

end Functions

end Indifferent

end OnePass.Emission
