import OnePass.Proofs.Emission.Events

/-!
# The program of an accepted text is closed

At the end of a derivation without repairs nothing is left open: no operand waits, no
definition and no loop is open, and so no slot is held. The call of `main` is put behind.

* `Allotted`: a cell that was handed out.
* `Calls`: the code of a call, which stores the slot behind itself. `calls_resolveCall`: where a
  call is written.
* `closed_of_accepted`: the program is closed, and so are its calls.
-/

namespace OnePass.Emission

open Names Target

/-- **The code of a call** at a slot: the slot behind it is stored, and the function entered. -/
def Calls (program : Array (Option Instruction)) (slot : Nat) (info : FunctionInfo) : Prop :=
  program[slot]? = some (some (.assign (.immediate (slot + 2)) (.direct info.returnCell))) ∧
    program[slot + 1]? = some (some (.jump info.start))

variable {g : Generator} {line : Nat} {info : FunctionInfo}

theorem Calls.mono {p p' : Array (Option Instruction)} {slot : Nat}
    {allowed : Instruction → Prop} (h : Calls p slot info) (hp : Extends allowed p p') :
    Calls p' slot info :=
  ⟨hp.kept _ _ h.1, hp.kept _ _ h.2⟩

/-- The call stays within the program. -/
theorem Calls.lt_size {p : Array (Option Instruction)} {slot : Nat} (h : Calls p slot info) :
    slot + 2 ≤ p.size :=
  (Array.getElem?_eq_some_iff.1 h.2).1

theorem calls_push (p : Array (Option Instruction)) (info : FunctionInfo) :
    Calls ((p.push (some (.assign (.immediate (p.size + 2)) (.direct info.returnCell)))).push
      (some (.jump info.start))) p.size info := by
  refine ⟨?_, ?_⟩
  · rw [Array.getElem?_push, if_neg (by simp), Array.getElem?_push, if_pos rfl]
  · rw [Array.getElem?_push, if_pos (by simp)]

/-- As many values are taken as are asked for. -/
theorem ends_takeValues_length {count : Nat} :
    Ends (takeValues line count) g fun arguments _ => arguments.length = count := by
  induction count generalizing g with
  | zero => exact (ends_pure _).2 rfl
  | succ count ih =>
    simp only [takeValues, ends_bind, ends_takeValue, ends_pure]
    exact ih.mono fun others _ h => by rw [List.length_append, h, List.length_singleton]

/-- **A call that finds its function** writes its code behind the copies of its arguments, and the
result is fetched in the slot that it stores. -/
theorem calls_callFunction {row : Nat} {arguments : List Operand}
    (ha : arguments.length = info.arity) : Ends (callFunction row info arguments) g fun _ g' =>
      Calls g'.memory.program (g.programNext + info.arity) info ∧
        g'.programNext = g.programNext + info.arity + 3 := by
  simp only [callFunction, ends_bind, ends_get]
  refine (ends_forM_emit (f := fun p : Operand × Nat => .assign p.1 (.direct p.2))).mono ?_
  rintro _ g₁ rfl
  -- there is one copy for each argument
  have hcopies : ((arguments.zip info.params).map fun p : Operand × Nat =>
      Instruction.assign p.1 (.direct p.2)).length = info.arity := by
    rw [List.length_map, List.length_zip, ha, FunctionInfo.arity, Nat.min_self]
  have hnext := g.programNext_appendAll ((arguments.zip info.params).map fun p =>
    Instruction.assign p.1 (.direct p.2))
  rw [hcopies] at hnext
  generalize g.appendAll _ = g₁ at hnext
  refine ends_jumpInto.mono ?_
  rintro _ g₂ rfl
  simp only [ends_freshTemp, ends_emit]
  intro _ _
  have hdone : ∀ g' : Generator, (∃ i, g'.memory.program =
      (((g₁.memory.program.push (some (.assign (.immediate (g₁.programNext + 2))
        (.direct info.returnCell)))).push (some (.jump info.start))).push (some i))) →
      Calls g'.memory.program (g.programNext + info.arity) info ∧
        g'.programNext = g.programNext + info.arity + 3 := by
    rintro g' ⟨i, hi⟩
    have hext : ∀ p : Array (Option Instruction), Extends (fun _ => True) p (p.push (some i)) :=
      fun _ => .push_some trivial
    rw [← hnext]
    constructor
    · rw [hi]
      exact (calls_push _ info).mono (hext _)
    · change g'.memory.program.size = _
      rw [hi]
      simp only [Array.size_push]
      rfl
  split
  · simp only [ends_bind, ends_modify, ends_push]
    exact hdone _ ⟨_, rfl⟩
  · simp only [ends_push]
    exact hdone _ ⟨_, rfl⟩

theorem calls_resolveCall {row : Nat} (hc : g.callee? = some (row, info)) :
    Ends (resolveCall line) g fun _ g' =>
      Calls g'.memory.program (g.programNext + info.arity) info ∧
        g'.programNext = g.programNext + info.arity + 3 := by
  simp only [resolveCall, ends_bind, ends_pop, ends_get, ends_modify]
  obtain ⟨st, hst⟩ := g.pop_frame
  have harity := (function?_of_callee? hc).2
  rw [Generator.argumentCount] at harity
  rw [Generator.callee?, Generator.argumentCount] at hc
  refine (ends_takeValues_frame.and ends_takeValues_length).mono ?_
  rintro arguments g₁ ⟨⟨st', voids, errors, rfl⟩, hlength⟩
  dsimp only
  rw [hst] at hc hlength harity ⊢
  have hc' : g.symbols.callee? g.symbols.currentScope (g.pendingCalls.headD "")
      (min ((g.pop.1.index?).getD 0) st.length) = some (row, info) := hc
  rw [hc']
  exact calls_callFunction (hlength.trans harity.symm)

/-- **A closed program:** every slot is filled, by an instruction that mentions only these cells,
writes no number and jumps to a slot no later than `limit`. -/
def ClosedProgram (cell : Nat → Prop) (limit : Nat) (p : Array (Option Instruction)) : Prop :=
  ∀ s < p.size, ∃ i, p[s]? = some (some i) ∧ i.Closed cell limit

theorem ClosedProgram.push {cell : Nat → Prop} {limit : Nat} {p : Array (Option Instruction)}
    {i : Instruction} (h : ClosedProgram cell limit p) (hi : i.Closed cell limit) :
    ClosedProgram cell limit (p.push (some i)) := by
  intro s hs
  rw [Array.size_push] at hs
  rw [Array.getElem?_push]
  split
  · exact ⟨i, rfl, hi⟩
  · exact h s (by omega)

/-- Where nothing is left open, no slot is held. -/
theorem Sound.closedProgram {E : Setting} {bound : Nat}
    (h : Sound E 0 bound [] none g []) :
    ClosedProgram (E.Cell g.memory.dataNext) g.programNext g.memory.program := by
  obtain ⟨held, loops, record, h1, h2, -, h4⟩ := h.layers
  have hnone : ∀ s : Nat, g.memory.program[s]? ≠ some none := by
    generalize g.stack = st at h1
    generalize g.definitions = defs at h1
    generalize Option.getD none g.currentScope = cur at h1
    cases h1 with
    | nil =>
      obtain ⟨hbreaks, hcontinues⟩ := h2.none rfl
      intro s hs
      simpa [hbreaks, hcontinues] using (h4.2 s).1 hs
  intro s hs
  obtain ⟨content, hcontent⟩ : ∃ content, g.memory.program[s]? = some content :=
    ⟨_, Array.getElem?_eq_getElem hs⟩
  cases content with
  | none => exact absurd hcontent (hnone s)
  | some i => exact ⟨i, hcontent, h.code s i hcontent⟩

/-- **The end of a program** calls the latest `main` at top level, if there is one. -/
theorem Sound.ends_callMain {E : Setting} {bound : Nat} (h : Sound E 0 bound [] none g []) :
    Ends (callMain line) g fun _ g' =>
      ((g.symbols.functionsIn Scopes.outermost mainName).head? = none ∧
        g'.memory.program = g.memory.program) ∨
      ∃ row info, (g.symbols.functionsIn Scopes.outermost mainName).head? = some row ∧
        g.symbols.function? row = some info ∧ Calls g'.memory.program g.programNext info ∧
        g'.programNext = g.programNext + 2 ∧
        ClosedProgram (E.Cell g.memory.dataNext) g.programNext g'.memory.program := by
  simp only [callMain, ends_bind, ends_get]
  split
  · rename_i row hrow
    simp only [ends_bind]
    refine ends_functionOn.mono ?_
    rintro info g₁ ⟨rfl, hf⟩
    obtain ⟨hcells, hstart⟩ := h.fits_of_function? hf
    have hreturn : E.Cell g₁.memory.dataNext info.returnCell :=
      .inl (hcells _ (by simp [FunctionInfo.cells]))
    have hs := Setting.programSize_lt (hcells info.result (by simp [FunctionInfo.cells]))
      h.memory.data_le
    have hsize := h.memory.size
    have hclosed := h.closedProgram
    refine ends_jumpInto.mono ?_
    rintro _ g₂ rfl
    refine .inr ⟨row, info, hrow, hf, calls_push _ info, ?_, ?_⟩
    · simp only [Generator.programNext_append]
    · exact (hclosed.push (Instruction.closed_assign (Operand.reads_immediate _)
        (Operand.writes_direct hreturn (h.cell_lt hreturn)))).push
          (Instruction.closed_jump hstart
            (Nat.lt_of_le_of_lt hstart (Nat.lt_of_le_of_lt hsize hs)))
  · rename_i hrow
    exact ends_report.2 (.inl ⟨hrow, rfl⟩)

end OnePass.Emission

namespace OnePass.Derivation

open Emission Names Target

variable {config : Config} {source : String} {o : Outcome}

/-- **A cell that was handed out** in the derivation of a text: a variable cell below the next one
in line, or a temporary that an action took. Each lies a whole number of units into its zone. -/
def Allotted (config : Config) (source : String) (next a : Nat) : Prop :=
  DataCell config next a ∨ TempCell config a ∧ HandedOut config source a

/-- **The program of an accepted text is closed.** No slot is left empty, code mentions only cells
that were handed out, and jumps stay within the program. Each call that finds its function stands
behind the copies of its arguments and stores the slot behind itself, where its result is fetched;
this slot is in the program. The call of `main` at the end stores the length that the program then
has. -/
theorem closed_of_accepted (h : Accepted config source o) :
    let p := o.generator.memory.program
    let next := o.generator.memory.dataNext
    let main := (o.generator.symbols.functionsIn Scopes.outermost mainName).head?
    next ≤ config.tempsFrom ∧
    ClosedProgram (Allotted config source next) p.size p ∧
    (∀ (e : Event config source) (row : Nat) (info : FunctionInfo),
      e.action = .dispatch → e.before.callee? = some (row, info) →
        let slot := e.before.programNext + info.arity
        Calls p slot info ∧ e.after.programNext = slot + 3 ∧ slot + 2 < p.size) ∧
    ∀ g, callMain o.lastLine o.generator = .ok () g →
      (main = none ∧ g.memory.program = p) ∨
      ∃ row info, main = some row ∧ o.generator.symbols.function? row = some info ∧
        Calls g.memory.program p.size info ∧ g.memory.program.size = p.size + 2 ∧
        ClosedProgram (Allotted config source next) p.size g.memory.program := by
  obtain ⟨table, w, m, htable, -, -, hw, -⟩ := along_of_parse h.parsed h.derived
  have htemp : ∀ e : Event config source, ∀ cell, Takes e.action e.before e.after cell →
      HandedOut config source cell := fun e _ htakes => ⟨e, htakes⟩
  obtain ⟨⟨bound, hs⟩, -⟩ := h.final ⟨table, htable, hw⟩ htemp
  intro p next main
  refine ⟨hs.memory.data_le, hs.closedProgram, ?_, fun g hg => hs.ends_callMain () g hg⟩
  intro e row info haction hc slot
  have hp := e.performs.2
  rw [haction] at hp
  obtain ⟨hcalls, hnext⟩ := calls_resolveCall hc () e.after hp
  have hlasts := e.lasts h
  have hsize : e.after.programNext ≤ p.size := hlasts.size
  rw [hnext] at hsize
  exact ⟨hcalls.mono hlasts, hnext, by omega⟩

theorem closed_increment :
    let source := "def f ( x ) : return x + 1 ; ; def main ( ) : while ( f ( 1 ) < 2 ) break ; ; ;"
    ∃ o, Accepted .standard source o ∧
      ClosedProgram (Allotted .standard source o.generator.memory.dataNext)
        o.generator.memory.program.size o.generator.memory.program := by
  intro source
  have h : (parse .standard source).toOption.map (·.syntaxErrors) = some [] := by
    rw [parse_eq, Grammar.table_eq_ok]
    decide +kernel
  cases ho : parse .standard source with
  | error e =>
    rw [ho] at h
    cases h
  | ok o =>
    rw [ho] at h
    have ha : Accepted .standard source o :=
      ⟨rfl, by decide, by decide, ho, by simpa [Except.toOption] using h⟩
    exact ⟨o, ha, (closed_of_accepted ha).2.1⟩

end OnePass.Derivation
