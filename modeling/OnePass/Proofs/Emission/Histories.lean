import OnePass.Proofs.Emission.Changes
import OnePass.Proofs.Names.Ageing

/-!
# Histories of code generation

Code generation is asked to perform actions, to register the words that are read and to end
the program, in any order and after failures, too. From each state along such a history to each
later one rows only age.

* `Demand`: what code generation is asked. `states`: the states along a list of steps.
* `Change.ages`: every single change leaves rows that have aged.
* `pairwise_ages`: **rows only age,** from each state to every later one.
-/

namespace OnePass.Emission

open Lexical (TokenKind)
open Names Target

/-- **What code generation is asked:** to perform an action, to register a word that has been read,
or to end the program. -/
inductive Demand where
  | perform (r : Request)
  | register (word : String) (kind : TokenKind)
  | finish (line : Nat)

/-- What a demand asks for. -/
def Demand.step : Demand → Emit Unit
  | .perform r => r.step
  | .register word kind => modify fun g => { g with symbols := (g.symbols.recordWord word kind).2 }
  | .finish line => callMain line

/-- **The states along a list of steps:** the first, and the one that each step leaves. A step that
fails is followed by the next one all the same. -/
def states (g : Generator) : List (Emit Unit) → List Generator
  | [] => [g]
  | x :: rest => g :: states (stateAfter x g) rest

/-- What every step keeps holds all along. -/
theorem forall_mem_states {I : Generator → Prop} {steps : List (Emit Unit)}
    (h : ∀ x ∈ steps, ∀ g, I g → I (stateAfter x g)) {g : Generator} (hg : I g) :
    ∀ g' ∈ states g steps, I g' := by
  induction steps generalizing g with
  | nil =>
    intro g' hg'
    rw [states, List.mem_singleton] at hg'
    exact hg' ▸ hg
  | cons x steps ih =>
    rw [List.forall_mem_cons] at h
    exact List.forall_mem_cons.2 ⟨hg, ih h.2 (h.1 g hg)⟩

/-- What each step relates is related between every two states, if one follows from another. -/
theorem pairwise_states {R : Generator → Generator → Prop}
    (htrans : ∀ g g' g'', R g g' → R g' g'' → R g g'') {steps : List (Emit Unit)}
    (h : ∀ x ∈ steps, ∀ g, R g (stateAfter x g)) (g : Generator) : (states g steps).Pairwise R := by
  induction steps generalizing g with
  | nil => exact List.pairwise_singleton _ _
  | cons x steps ih =>
    rw [List.forall_mem_cons] at h
    refine List.pairwise_cons.2 ⟨?_, ih h.2 _⟩
    exact forall_mem_states (fun y hy g' hg' => htrans _ _ _ hg' (h.2 y hy g')) (h.1 g)

/-- A word that is registered has its row, or gets one. -/
theorem changes_register (word : String) (kind : TokenKind) (g : Generator) :
    Changes word g { g with symbols := (g.symbols.recordWord word kind).2 } := by
  have hrow (reuse : Meaning → Bool) :
      Changes word g { g with symbols := (g.symbols.rowFor word kind reuse).2 } := by
    rcases (g.symbols.rowFor_spec word kind reuse).2 with ⟨heq, -⟩ | heq
    · rw [heq]
    · rw [heq]
      exact .single (.appendRow kind)
  unfold SymbolTable.recordWord
  split
  · exact .refl
  · exact hrow _

/-- **All that a demand leaves** comes from changes with one lexeme. -/
theorem changes_demand (d : Demand) (g : Generator) : ∃ x, Changes x g (stateAfter d.step g) := by
  cases d with
  | perform r => exact ⟨r.lexeme, changes_perform r.action r.lexeme r.line g⟩
  | register word kind => exact ⟨word, changes_register word kind g⟩
  | finish line => exact ⟨"", changes_callMain "" line g⟩

variable {x : String} {g g' : Generator}

/-- A row of a variable may come to mean anything. -/
theorem ages_setVariable {t : SymbolTable} {row : Nat} {m : Meaning}
    (hv : (t.meaning? row).any Meaning.isVariable = true) : t.Ages (t.setMeaning row m) := by
  refine SymbolTable.ages_setMeaning fun old hold => ?_
  rw [hold, Option.any_some] at hv
  cases old <;> first | exact .ofVariable _ m | cases hv

/-- **Every change leaves rows that have aged.** -/
theorem Change.ages (h : Change x g g') : g.symbols.Ages g'.symbols := by
  cases h with
  | aside h => exact SymbolTable.ages_of_rows (by rw [h.symbols])
  | appendRow kind => exact SymbolTable.ages_appendRow g.symbols x kind
  | enterScope region => exact SymbolTable.ages_of_rows rfl
  | leaveScope => exact SymbolTable.ages_of_rows rfl
  | takeCell | takeNextCell | openHeader | addParam | dropHeader | closeDefinition =>
    exact .refl g.symbols
  | bind _ hv => exact ages_setVariable hv
  | bindTo _ hv => exact ages_setVariable hv
  | recordLoops record _ hr =>
    refine SymbolTable.ages_setMeaning fun old hold => ?_
    rw [hold, Option.any_some] at hr
    rcases old with cell | f | l
    · exact .ofVariable cell _
    · cases hr
    · exact .loops l record
  | publish start hd hi hv => exact ages_setVariable hv
  | noteValue hf =>
    refine SymbolTable.ages_setMeaning fun old hold => ?_
    rw [SymbolTable.function?, hold, Option.bind_some] at hf
    rcases old with cell | f | l <;> cases hf
    exact .function _ fun _ => rfl
  | retire hf => exact SymbolTable.ages_retire hf

theorem Changes.ages (h : Changes x g g') : g.symbols.Ages g'.symbols := by
  induction h with
  | refl => exact .refl g.symbols
  | tail _ hlast ih => exact ih.trans hlast.ages

/-- **Rows only age.** Under every configuration and along every history, failures included, no row
is lost between a state and a later one, and none moves: each keeps its kind and its scope, it
keeps its name unless it is a function that has been retired, once, and what it stands for
unless it was a variable; a function keeps its cells and its first slot. -/
theorem pairwise_ages (c : Config) (demands : List Demand) :
    (states (.ofConfig c) (demands.map Demand.step)).Pairwise fun g g' =>
      g.symbols.rows.size ≤ g'.symbols.rows.size ∧ g.symbols.Ages g'.symbols := by
  have hstep : ∀ x ∈ demands.map Demand.step, ∀ g : Generator,
      g.symbols.Ages (stateAfter x g).symbols := by
    intro x hx g
    obtain ⟨d, -, rfl⟩ := List.mem_map.1 hx
    obtain ⟨lexeme, hchanges⟩ := changes_demand d g
    exact hchanges.ages
  have hpairs := pairwise_states (R := fun g g' => g.symbols.Ages g'.symbols)
    (fun _ _ _ h h' => h.trans h') hstep (.ofConfig c)
  exact hpairs.imp fun h => ⟨h.size_le, h⟩

/-- Of two functions of one name the earlier one keeps its row, under another name. -/
example : ((states (.ofConfig { Config.standard with keywords := [] })
    (([⟨.enterFunction, "f", 1⟩, ⟨.paramsDone, "", 1⟩, ⟨.exitFunction, "", 1⟩,
      ⟨.checkOverload, "", 1⟩, ⟨.enterFunction, "f", 2⟩, ⟨.paramsDone, "", 2⟩,
      ⟨.exitFunction, "", 2⟩, ⟨.checkOverload, "", 2⟩].map Demand.perform).map Demand.step)).map
        fun g => g.symbols.rows.toList.map (·.name)) =
    [[], ["f"], ["f"], ["f"], ["f"], ["f", "f"], ["f", "f"], ["f", "f"], ["~dead~f", "f"]] := by
  decide +kernel

end OnePass.Emission
