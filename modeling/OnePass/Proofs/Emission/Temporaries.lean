import OnePass.Proofs.Emission.Calls

/-!
# Temporaries that actions take

An action takes its temporaries one behind the other, from the next one on. A power
gives two of its three back, and so does a statement with the result of its call.

* `temps`: how many temporaries an action takes. `scratch`: how many it gives back itself.
* `Takes`: a temporary that an action takes. `ends_takes`: it takes as many as it needs.
-/

namespace OnePass.Emission

open Grammar (Action)
open Names Target

/-- How many temporaries an action takes. A call takes one if it finds its function. -/
def temps (a : Action) (g : Generator) : Nat :=
  match a with
  | .elementAddress | .elementValue => 2
  | .add | .sub | .mult | .compare => 1
  | .power => 3
  | .dispatch => if g.callee?.isSome then 1 else 0
  | _ => 0

/-- How many of its temporaries an action gives back before it ends. -/
def scratch : Action → Nat
  | .power => 2
  | _ => 0

/-- **A temporary that an action takes** on its way from one state to the next: one of those from
the next one on, up to the last that is in use at the end or was given back. -/
def Takes (a : Action) (g g' : Generator) (cell : Nat) : Prop :=
  (∃ k, cell = g.memory.tempNext + k * g.memory.unit) ∧
    cell + g.memory.unit ≤ g'.memory.tempNext + scratch a * g.memory.unit

/-- The room that so many temporaries need is there, and all but the scratch stays in use. -/
def Spends (a : Action) (count : Nat) (g g' : Generator) : Prop :=
  g.memory.tempNext + count * g.memory.unit ≤ g.memory.capacity ∧
    g'.memory.tempNext + scratch a * g.memory.unit = g.memory.tempNext + count * g.memory.unit

section Memory

variable (g : Generator)

@[simp] theorem Generator.tempNext_push (o : Operand) :
    (g.push o).memory.tempNext = g.memory.tempNext := rfl

@[simp] theorem Generator.tempNext_appendAll (code : List Instruction) :
    (g.appendAll code).memory.tempNext = g.memory.tempNext := by
  induction code generalizing g with
  | nil => rfl
  | cons i code ih => exact ih (g.append (some i))

@[simp] theorem Generator.unit_appendAll (code : List Instruction) :
    (g.appendAll code).memory.unit = g.memory.unit := by
  induction code generalizing g with
  | nil => rfl
  | cons i code ih => exact ih (g.append (some i))

@[simp] theorem Generator.tempsFrom_appendAll (code : List Instruction) :
    (g.appendAll code).memory.tempsFrom = g.memory.tempsFrom := by
  induction code generalizing g with
  | nil => rfl
  | cons i code ih => exact ih (g.append (some i))

/-- The latest temporary can be given back. -/
theorem Generator.dropTemp_of_latest {cell : Nat} (h : cell + g.memory.unit = g.memory.tempNext)
    (hle : g.memory.tempsFrom ≤ cell) :
    g.dropTemp cell = { g with memory := { g.memory with tempNext := cell } } := by
  unfold Generator.dropTemp Memory.dropTemp
  rw [if_pos (by simp [Memory.isLatestTemp, h, hle])]

/-- The two latest can be given back, the later one first. -/
theorem Generator.tempNext_dropTemp_dropTemp (cell : Nat)
    (h : cell + 2 * g.memory.unit = g.memory.tempNext) (hle : g.memory.tempsFrom ≤ cell) :
    ((g.dropTemp (cell + g.memory.unit)).dropTemp cell).memory.tempNext = cell := by
  rw [g.dropTemp_of_latest (by omega) (by omega), Generator.dropTemp_of_latest]
  · rfl
  · exact hle

end Memory

variable {g : Generator} {line : Nat}

/-- What is spent depends on the memory image only. -/
theorem Spends.congr {a : Action} {count : Nat} {g g₁ g' : Generator}
    (h : Spends a count g₁ g') (hm : g₁.memory = g.memory) : Spends a count g g' := by
  unfold Spends at h ⊢
  rwa [hm] at h

theorem spends_operate {op : Opcode} {left right : Operand} {a : Action} (ha : scratch a = 0) :
    Ends (operate op left right) g fun _ g' => Spends a 1 g g' := by
  simp only [operate, ends_bind, ends_freshTemp, ends_emit, ends_push]
  intro hle _
  simp only [Spends, ha, Generator.tempNext_push, Generator.tempNext_append,
    Generator.tempNext_withTemp]
  omega

theorem spends_combine {op : Opcode} {a : Action} (ha : scratch a = 0) :
    Ends (combine op line) g fun _ g' => Spends a 1 g g' := by
  simp only [combine, ends_bind, ends_takeValue]
  exact (spends_operate ha).mono fun _ _ h => h.congr (by simp)

theorem spends_relate {a : Action} (ha : scratch a = 0) :
    Ends (relate line) g fun _ g' => Spends a 1 g g' := by
  simp only [relate, ends_bind, ends_takeValue, ends_pop]
  exact (spends_operate ha).mono fun _ _ h => h.congr (by simp [Generator.memory_pop])

theorem spends_element {asValue : Bool} {a : Action} (ha : scratch a = 0) :
    Ends (element line asValue) g fun _ g' => Spends a 2 g g' := by
  simp only [element, ends_bind, ends_takeValue, ends_get, ends_freshTemp, ends_emit, ends_push]
  intro h1 _ h2 _
  simp only [Generator.tempNext_append, Generator.tempNext_withTemp, Generator.unit_append,
    Generator.unit_withTemp, Generator.capacity_append, Generator.capacity_withTemp,
    Generator.memory_takeValue] at h2
  simp only [Spends, ha, Generator.tempNext_push, Generator.tempNext_append, Generator.unit_append,
    Generator.unit_withTemp, Generator.tempNext_withTemp, Generator.memory_takeValue]
  omega

theorem spends_raise (hfrom : g.memory.tempsFrom ≤ g.memory.tempNext) :
    Ends (raise line) g fun _ g' => Spends .power 3 g g' := by
  rcases h₁ : g.takeValue line with ⟨exponent, g₁⟩
  rcases h₂ : g₁.takeValue line with ⟨base, g₂⟩
  refine ends_raise h₁ h₂ fun hle _ => ?_
  have hm : g₂.memory = g.memory := by
    rw [show g₂ = (g₁.takeValue line).2 by rw [h₂], Generator.memory_takeValue,
      show g₁ = (g.takeValue line).2 by rw [h₁], Generator.memory_takeValue]
  rw [← hm] at hfrom
  suffices h : Spends .power 3 g₂ (g₂.withPower base exponent) from h.congr hm
  unfold Generator.withPower
  extract_lets result counter running g'
  have hnext : g'.memory.tempNext = g₂.memory.tempNext + 3 * g₂.memory.unit := by
    simp only [g', Generator.tempNext_appendAll, Generator.tempNext_withTemp,
      Generator.unit_withTemp]
    omega
  have hunit : g'.memory.unit = g₂.memory.unit := by
    simp only [g', Generator.unit_appendAll, Generator.unit_withTemp]
  have hzone : g'.memory.tempsFrom = g₂.memory.tempsFrom := by
    simp only [g', Generator.tempsFrom_appendAll]
    rfl
  have hscratch := g'.tempNext_dropTemp_dropTemp counter
    (by simp only [hnext, hunit, counter, Generator.tempNext_withTemp]; omega)
    (by rw [hzone]; exact Nat.le_trans hfrom (Nat.le_add_right _ _))
  rw [hunit] at hscratch
  simp only [Spends, Generator.tempNext_push, scratch]
  refine ⟨hle, ?_⟩
  rw [show running = counter + g₂.memory.unit from rfl, hscratch]
  simp only [counter, Generator.tempNext_withTemp]
  omega

theorem ends_takeValues_frame {count : Nat} : Ends (takeValues line count) g fun _ g' =>
    ∃ st voids errors, g' = { g with stack := st, voidResults := voids, errors := errors } := by
  induction count generalizing g with
  | zero => exact (ends_pure _).2 ⟨g.stack, g.voidResults, g.errors, rfl⟩
  | succ count ih =>
    simp only [takeValues, ends_bind, ends_takeValue, ends_pure]
    obtain ⟨st, voids, errors, ht⟩ := g.takeValue_frame line
    rw [ht]
    refine ih.mono ?_
    rintro _ g' ⟨st', voids', errors', rfl⟩
    exact ⟨st', voids', errors', rfl⟩

theorem spends_callFunction {row : Nat} {info : FunctionInfo} {arguments : List Operand} :
    Ends (callFunction row info arguments) g fun _ g' => Spends .dispatch 1 g g' := by
  simp only [callFunction, jumpInto, ends_bind, ends_get]
  refine (ends_forM (P := fun g' => g'.memory.tempNext = g.memory.tempNext ∧
    g'.memory.unit = g.memory.unit ∧ g'.memory.capacity = g.memory.capacity) ⟨rfl, rfl, rfl⟩
    ?_).mono ?_
  · rintro ⟨argument, cell⟩ - g₁ h
    rw [ends_emit]
    exact fun _ => h
  rintro _ g₁ ⟨hnext, hunit, hcapacity⟩
  simp only [ends_emit, ends_freshTemp]
  intro _ _ hle _
  simp only [Generator.tempNext_append, Generator.unit_append, Generator.capacity_append] at hle
  have hdone : ∀ g', g'.memory.tempNext = g₁.memory.tempNext + g₁.memory.unit →
      Spends .dispatch 1 g g' := by
    intro g' h
    simp only [Spends, scratch]
    omega
  split
  · simp only [ends_bind, ends_modify, ends_push]
    exact hdone _ rfl
  · simp only [ends_push]
    exact hdone _ rfl

theorem spends_resolveCall (hc : g.callee?.isSome) :
    Ends (resolveCall line) g fun _ g' => Spends .dispatch 1 g g' := by
  simp only [resolveCall, ends_bind, ends_pop, ends_get, ends_modify]
  obtain ⟨st, hst⟩ := g.pop_frame
  obtain ⟨⟨row, info⟩, hcallee⟩ := Option.isSome_iff_exists.1 hc
  rw [Generator.callee?, Generator.argumentCount] at hcallee
  refine ends_takeValues_frame.mono ?_
  rintro arguments g₁ ⟨st', voids, errors, rfl⟩
  dsimp only
  rw [hst] at hcallee ⊢
  have hcallee' : g.symbols.callee? g.symbols.currentScope (g.pendingCalls.headD "")
      (min ((g.pop.1.index?).getD 0) st.length) = some (row, info) := hcallee
  rw [hcallee']
  exact spends_callFunction.mono fun _ _ h => h.congr rfl

/-- The actions that take temporaries have room for them. -/
theorem ends_spends (hfrom : g.memory.tempsFrom ≤ g.memory.tempNext) {a : Action} (lexeme : String)
    (ha : temps a g ≠ 0) : Ends (perform a lexeme line) g fun _ g' => Spends a (temps a g) g g' := by
  cases a with
  | elementAddress => exact spends_element rfl
  | elementValue => exact spends_element rfl
  | add => exact spends_combine rfl
  | sub => exact spends_combine rfl
  | mult => exact spends_combine rfl
  | compare => exact spends_relate rfl
  | power => exact spends_raise hfrom
  | dispatch =>
    by_cases hc : g.callee?.isSome
    · rw [temps, if_pos hc]
      exact spends_resolveCall hc
    · exact absurd (if_neg hc) ha
  | _ => exact absurd rfl ha

/-- **An action takes as many temporaries as it needs.** -/
theorem ends_takes (hfrom : g.memory.tempsFrom ≤ g.memory.tempNext) (a : Action) (lexeme : String) :
    Ends (perform a lexeme line) g fun _ g' => ∀ k < temps a g,
      g.memory.tempNext + k * g.memory.unit + g.memory.unit ≤ g.memory.capacity ∧
        Takes a g g' (g.memory.tempNext + k * g.memory.unit) := by
  by_cases ha : temps a g = 0
  · rw [ha]
    exact fun _ _ _ k hk => absurd hk (Nat.not_lt_zero k)
  refine (ends_spends hfrom lexeme ha).mono ?_
  rintro _ g' ⟨h1, h2⟩ k hk
  have := Nat.mul_le_mul_right g.memory.unit (Nat.succ_le_of_lt hk)
  rw [Nat.succ_mul] at this
  exact ⟨by omega, ⟨k, rfl⟩, by omega⟩

end OnePass.Emission
