import OnePass.Proofs.Emission.Values

/-!
# Calls keep generation sound

The number on the stack tells how many arguments lie below it. They go to the cells of
the function that is called, and its result comes back in a temporary.

* `ends_takeValues`: the arguments are taken.
* `Sound.ends_startCall`, `Sound.ends_countArgument`: arguments are counted.
* `Sound.ends_resolveCall`, `Sound.ends_dropResult`: calls.
-/

namespace OnePass.Emission

open Grammar (Item)
open Names Target

variable {g : Generator} {line : Nat}

/-- **As many values are taken** as are asked for, and the first of them is the lowest. -/
theorem ends_takeValues {values : List Operand} {st : OperandStack} (h : g.stack = values ++ st) :
    Ends (takeValues line values.length) g fun arguments g' => arguments = values.reverse ∧
      ∃ voids errors, g' = { g with stack := st, voidResults := voids, errors := errors } := by
  induction values generalizing g with
  | nil =>
    rw [List.nil_append] at h
    subst h
    exact (ends_pure _).2 ⟨rfl, g.voidResults, g.errors, rfl⟩
  | cons o values ih =>
    simp only [List.length_cons, takeValues, ends_bind, ends_takeValue, ends_pure]
    obtain ⟨voids, errors, ht⟩ := Generator.takeValue_eq h line
    rw [ht]
    refine (ih rfl).mono ?_
    rintro others g' ⟨rfl, voids', errors', rfl⟩
    exact ⟨List.reverse_cons.symm, voids', errors', rfl⟩

/-- The function that a call of so many arguments selects stands on its row. -/
theorem function?_of_callee? {t : SymbolTable} {scope count row : Nat} {name : String}
    {info : FunctionInfo} (h : t.callee? scope name count = some (row, info)) :
    t.function? row = some info ∧ info.arity = count := by
  obtain ⟨row', -, h⟩ := List.exists_of_findSome?_eq_some h
  obtain ⟨info', h, heq⟩ := Option.map_eq_some_iff.1 h
  cases heq
  obtain ⟨h, hp⟩ := Option.filter_eq_some_iff.1 h
  exact ⟨h, by simpa using hp⟩

/-- How many arguments the call on top of the stack has. -/
def Generator.argumentCount (g : Generator) : Nat :=
  min ((g.pop.1.index?).getD 0) g.pop.2.stack.length

/-- **The function that the call on top of the stack selects.** -/
def Generator.callee? (g : Generator) : Option (Nat × FunctionInfo) :=
  g.symbols.callee? g.currentScope (g.pendingCalls.headD "") g.argumentCount

/-- The number on top of the values is that of the values. -/
theorem argumentCount_eq {values : List Operand} {st : OperandStack}
    (h : g.stack = .immediate values.length :: (values ++ st)) :
    g.argumentCount = values.length := by
  rw [Generator.argumentCount, Generator.pop_eq h]
  dsimp only
  rw [Operand.index?, Operand.immediate, if_pos (Int.natCast_nonneg _), Option.getD_some,
    Int.toNat_natCast, List.length_append]
  exact Nat.min_eq_left (Nat.le_add_right _ _)

namespace Sound

variable {E : Setting} {slack bound : Nat} {extra : List Nat} {away : Option Nat}
  {items : List Item} {name : String}

theorem ends_startCall (h : Sound E slack bound extra away g items) :
    Ends (startCall name) g fun _ g' => Sound E slack bound extra away g' (.call :: items) := by
  simp only [startCall, ends_bind, ends_push, ends_modify]
  obtain ⟨held, loops, record, h1, h2⟩ := h.layers
  have hnone : ∀ o ∈ ([] : List Operand), o.Reads (E.Cell g.memory.dataNext) :=
    fun o ho => absurd ho List.not_mem_nil
  have h1 := h1.call hnone (Nat.zero_le bound)
  exact { h with layers := ⟨held, loops, record, h1, h2⟩ }

/-- **An argument is counted.** -/
theorem ends_countArgument (h : Sound E slack bound extra away g (.value :: .call :: items))
    (hb : (bound : Int) < Operand.maxWord) :
    Ends countArgument g fun _ g' =>
      Sound E slack (bound + 1) extra away g' (.call :: items) := by
  obtain ⟨held, loops, record, h1, h2⟩ := h.layers
  obtain ⟨o, st, hst, ho, h1⟩ := h1.of_value
  obtain ⟨values, st, rfl, hv, hn, h1⟩ := h1.of_call
  have htake : g.stack.take? 1 = some (.immediate values.length, o :: (values ++ st)) := by
    rw [hst]
    rfl
  simp only [countArgument, ends_bind, ends_modifyGet, ends_push, htake]
  have hinc : (Operand.immediate values.length).increment = ((o :: values).length : Nat) := by
    rw [Operand.increment, Operand.immediate, if_pos (by dsimp only; omega), List.length_cons]
    rfl
  rw [hinc]
  have h1 := (h1.mono (Nat.le_succ bound) (Nat.le_refl _) (fun _ _ _ h => h) fun _ h => h).call
    (List.forall_mem_cons.2 ⟨ho, hv⟩) (Nat.succ_le_succ hn)
  exact { h with layers := ⟨held, loops, record, h1, h2⟩ }

/-- **A call is compiled** once its arguments have been taken. -/
theorem ends_callFunction (h : Sound E 0 bound extra away g items) {row : Nat}
    {info : FunctionInfo} {arguments : List Operand}
    (hf : g.symbols.function? row = some info)
    (ha : ∀ o ∈ arguments, o.Reads (E.Cell g.memory.dataNext)) (ht : E.Temps g 1) :
    Ends (callFunction row info arguments) g fun _ g' =>
      Sound E 0 bound extra away g' (.value :: items) := by
  simp only [callFunction, jumpInto, ends_bind, ends_get]
  obtain ⟨hcells, hstart⟩ := h.fits_of_function? hf
  have hcell : ∀ a ∈ info.cells, E.Cell g.memory.dataNext a := fun a ha => .inl (hcells a ha)
  have hwrites : ∀ a ∈ info.cells, (Operand.direct a).Writes (E.Cell g.memory.dataNext) :=
    fun a ha => Operand.writes_direct (hcell a ha) (h.cell_lt (hcell a ha))
  have hresult : info.result ∈ info.cells := by simp [FunctionInfo.cells]
  have hs := Setting.programSize_lt (hcells _ hresult) h.memory.data_le
  refine (ends_forM (P := fun g' => Sound E 0 bound extra away g' items ∧
    g'.memory.dataNext = g.memory.dataNext ∧ g'.memory.tempNext = g.memory.tempNext ∧
    g'.memory.unit = g.memory.unit ∧ g.programNext ≤ g'.programNext)
    ⟨h, rfl, rfl, rfl, Nat.le_refl _⟩ ?_).mono ?_
  · rintro ⟨argument, cell⟩ hmem g₁ ⟨h₁, hd, htn, hu, hle⟩
    have hargument := ha argument (List.of_mem_zip hmem).1
    have hparam := hwrites cell (List.mem_append_left _ (List.of_mem_zip hmem).2)
    rw [← hd] at hargument hparam
    refine (h₁.ends_emit (Instruction.closed_assign hargument hparam)).mono ?_
    rintro _ g₂ ⟨rfl, h₂⟩
    exact ⟨h₂, hd, htn, hu, by rw [Generator.programNext_append]; omega⟩
  rintro _ g₁ ⟨h₁, hd, htn, hu, hle⟩
  have hreturn := hwrites info.returnCell (by simp [FunctionInfo.cells])
  rw [← hd] at hreturn
  refine (h₁.ends_emit (Instruction.closed_assign (Operand.reads_immediate _) hreturn)).mono ?_
  rintro _ g₂ ⟨rfl, h₂⟩
  have hsize := h₂.memory.size
  have hlimit : info.start ≤ (g₁.append (some (.assign (.immediate (g₁.programNext + 2))
      (.direct info.returnCell)))).programNext := by
    rw [Generator.programNext_append]
    omega
  refine (h₂.ends_emit (Instruction.closed_jump (Nat.le_succ_of_le hlimit)
    (Nat.lt_of_le_of_lt hlimit (Nat.lt_of_le_of_lt hsize hs)))).mono ?_
  rintro _ g₃ ⟨rfl, h₃⟩
  have ht' : E.Temps ((g₁.append (some (.assign (.immediate (g₁.programNext + 2))
      (.direct info.returnCell)))).append (some (.jump info.start))) (0 + 1) := by
    intro k hk
    have := ht k hk
    rwa [← htn, ← hu] at this
  refine (h₃.ends_freshTemp ht').mono ?_
  rintro result g₄ ⟨hr, hrlt, -, rfl, -, h₄⟩
  have hsource := (hwrites _ hresult).reads
  rw [← hd] at hsource
  refine (h₄.ends_emit (Instruction.closed_assign hsource (Operand.writes_direct hr hrlt))).mono ?_
  rintro _ g₅ ⟨rfl, h₅⟩
  have hpush := fun g' (h' : Sound E 0 bound extra away g' items)
      (hr : E.Cell g'.memory.dataNext result) =>
    h'.pushValue (Operand.writes_direct hr hrlt).reads
  split
  · simp only [ends_bind, ends_modify, ends_push]
    exact hpush _ { h₅ with } hr
  · simp only [ends_push]
    exact hpush _ h₅ hr

/-- **A call takes its arguments,** and leaves its result or an error. -/
theorem ends_resolveCall (h : Sound E 0 bound extra away g (.call :: items))
    (ht : g.callee?.isSome → E.Temps g 1) :
    Ends (resolveCall line) g fun _ g' => Sound E 0 bound extra away g' (.value :: items) := by
  obtain ⟨held, loops, record, h1, h2⟩ := h.layers
  obtain ⟨values, st, hst, hv, hn, h1⟩ := h1.of_call
  have hcount := argumentCount_eq hst
  rw [Generator.argumentCount, Generator.pop_eq hst] at hcount
  simp only [resolveCall, ends_bind, ends_pop, ends_get, ends_modify, Generator.pop_eq hst]
  dsimp only at hcount
  rw [hcount]
  refine (ends_takeValues rfl).mono ?_
  rintro arguments g₁ ⟨rfl, voids, errors, rfl⟩
  have h' : Sound E 0 bound extra away { g with
      stack := st
      voidResults := voids
      errors := errors
      pendingCalls := g.pendingCalls.tail } items :=
    { h with layers := ⟨held, loops, record, h1, h2⟩ }
  dsimp only
  cases hc : g.symbols.callee? g.symbols.currentScope (g.pendingCalls.headD "") values.length with
  | some callee =>
    obtain ⟨row, info⟩ := callee
    refine h'.ends_callFunction (function?_of_callee? hc).1 (fun o ho => hv o (by simpa using ho)) ?_
    refine ht ?_
    rw [Generator.callee?, argumentCount_eq hst]
    exact Option.isSome_of_eq_some hc
  | none =>
    simp only [ends_bind, ends_report, ends_push]
    exact (h'.report line _).pushValue (Operand.reads_immediate 0)

theorem ends_dropResult (h : Sound E slack bound extra away g (.value :: items)) :
    Ends dropResult g fun _ g' => Sound E slack bound extra away g' items := by
  simp only [dropResult, ends_bind, ends_pop, ends_get]
  have h := h.popValue.2
  split
  · split
    · rename_i cell _
      simp only [ends_bind, ends_modify, ends_dropTemp]
      have hc : Sound E slack bound extra away (g.pop.2.clearVoid cell) items := { h with }
      exact hc.dropTemp cell
    · exact (ends_pure ()).2 h
  · exact (ends_pure ()).2 h

end Sound

end OnePass.Emission
