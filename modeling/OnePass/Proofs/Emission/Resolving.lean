import OnePass.Proofs.Emission.Aloof
import OnePass.Proofs.Emission.Operands

/-!
# What a call comes to

A call uses its arguments, the last one first, and reports those of them that are void. If it finds
a function, the arguments go into the cells of its parameters and the slot behind the call into
its return cell; behind the jump its result is fetched into a temporary. If it finds none, that is
reported, and zero stands in for the result.

* `ends_takeValues_eq`: values are taken and used. `toList_errors_useAll`: what that reports.
* `callCode`, `Generator.called`: a function is called.
* `Generator.resolved`: a call with its arguments. `ends_resolveCall_eq`: **this is what an action
  makes of it.**
* `waiting_readName`, `waiting_startCall`, `waiting_resolveCall`, `waiting_perform`: the calls that wait.
-/

namespace OnePass.Emission

open Names Target

/-- **The instructions that lead into a function** from a slot on. -/
def entryCode (info : FunctionInfo) (arguments : List Operand) (next : Nat) : List Instruction :=
  let copies := (arguments.zip info.params).map fun p => .assign p.1 (.direct p.2)
  copies ++ [.assign (.immediate (next + copies.length + 2 : Nat)) (.direct info.returnCell),
    .jump info.start]

/-- **The instructions of a call,** which leave the result in a temporary. -/
def callCode (info : FunctionInfo) (arguments : List Operand) (next result : Nat) :
    List Instruction :=
  entryCode info arguments next ++ [.assign (.direct info.result) (.direct result)]

/-- **The generator with a function called.** Its result is void if it gives none, which is known
outside of its own body. -/
def Generator.called (g : Generator) (row : Nat) (info : FunctionInfo)
    (arguments : List Operand) : Generator :=
  let fetched := (g.appendAll (entryCode info arguments g.programNext)).withTemp.append
    (some (.assign (.direct info.result) (.direct g.memory.tempNext)))
  let result := if !info.returnsValue && !g.symbols.scopes.insideBody g.currentScope row
    then fetched.markVoid g.memory.tempNext else fetched
  result.push (.direct g.memory.tempNext)

/-- **The generator with a call resolved.** -/
def Generator.resolved (g : Generator) (line : Nat) (name : String) (arguments : List Operand) :
    Generator :=
  match g.symbols.callee? g.currentScope name arguments.length with
  | some (row, info) => g.called row info arguments
  | none =>
    let known := g.symbols.nearestFunction g.currentScope name
    (g.report line (if known.isSome then .argumentCount name else .undefined name)).push
      (.immediate 0)

variable {g : Generator} {line row : Nat} {name : String} {info : FunctionInfo}
  {values arguments : List Operand} {st : OperandStack} {o : Operand} {calls : List String}

section Values

theorem Generator.toList_errors_useValue (g : Generator) (line : Nat) (o : Operand) :
    ∃ count, (g.useValue line o).errors.toList =
      g.errors.toList ++ List.replicate count ⟨line, .voidOperand⟩ := by
  unfold useValue
  split
  · split
    · exact ⟨1, Array.toList_push⟩
    · exact ⟨0, (List.append_nil _).symm⟩
  · exact ⟨0, (List.append_nil _).symm⟩

/-- **Only void values are reported.** -/
theorem Generator.toList_errors_useAll (g : Generator) (line : Nat) (values : List Operand) :
    ∃ count, (g.useAll line values).errors.toList =
      g.errors.toList ++ List.replicate count ⟨line, .voidOperand⟩ := by
  induction values generalizing g with
  | nil => exact ⟨0, (List.append_nil _).symm⟩
  | cons o values ih =>
    obtain ⟨count, h⟩ := g.toList_errors_useValue line o
    obtain ⟨count', h'⟩ := ih (g.useValue line o)
    refine ⟨count + count', ?_⟩
    rw [useAll_cons, h', h, List.append_assoc, List.replicate_append_replicate]

/-- **Values are taken** from the stack, and each of them is used. -/
theorem ends_takeValues_eq (h : g.stack = values ++ st) :
    Ends (takeValues line values.length) g fun arguments g' =>
      arguments = values.reverse ∧ Took line values g st g' := by
  induction values generalizing g with
  | nil =>
    rw [List.nil_append] at h
    subst h
    exact (ends_pure _).2 ⟨rfl, rfl⟩
  | cons o values ih =>
    simp only [List.length_cons, takeValues, ends_bind, ends_takeValue, ends_pure]
    obtain ⟨rfl, h₁⟩ := took_takeValue h line
    refine (ih h₁.stack).mono ?_
    rintro others g' ⟨rfl, h₂⟩
    exact ⟨List.reverse_cons.symm, h₁.trans h₂⟩

end Values

section Calls

theorem Generator.appendAll_append (g : Generator) (code code' : List Instruction) :
    g.appendAll (code ++ code') = (g.appendAll code).appendAll code' := List.foldl_append

/-- **A function is called** with its arguments. -/
theorem ends_callFunction_eq : Ends (callFunction row info arguments) g fun _ g' =>
    g' = g.called row info arguments := by
  simp only [callFunction, jumpInto, ends_bind, ends_get]
  refine ends_forM_emit.mono ?_
  rintro _ _ rfl
  simp only [ends_emit, ends_freshTemp]
  intro _ _ _ _
  obtain ⟨copies, hcopies⟩ : ∃ copies, copies = (arguments.zip info.params).map fun p =>
      Instruction.assign p.1 (.direct p.2) := ⟨_, rfl⟩
  rw [← hcopies]
  -- the store and the jump are two instructions more
  have hentered : ((g.appendAll copies).append (some (.assign
      (.immediate ((g.appendAll copies).programNext + 2 : Nat)) (.direct info.returnCell)))).append
        (some (.jump info.start)) = g.appendAll (entryCode info arguments g.programNext) := by
    rw [entryCode, ← hcopies, Generator.appendAll_append, Generator.programNext_appendAll]
    rfl
  have htemp : (g.appendAll (entryCode info arguments g.programNext)).memory.tempNext =
      g.memory.tempNext := Generator.tempNext_appendAll _ _
  have hsymbols := (appendAll_frame g (entryCode info arguments g.programNext)).1
  have hcast : (Operand.immediate (((g.appendAll copies).programNext : Int) + 2)) =
      .immediate ((g.appendAll copies).programNext + 2 : Nat) := by norm_cast
  simp only [hcast, hentered]
  rw [htemp, Generator.called]
  simp only [Generator.currentScope, Generator.append, Generator.withTemp, Generator.clearVoid,
    hsymbols]
  split
  · simp only [ends_bind, ends_modify, ends_push]
  · simp only [ends_push]

/-- **A call is resolved** with the arguments that lie below their number. -/
theorem ends_resolveCall_eq (h : g.stack = .immediate values.length :: (values ++ st))
    (hc : g.pendingCalls = name :: calls) : Ends (resolveCall line) g fun _ g' =>
      ∃ g₁, Took line values g st g₁ ∧
        g' = ({ g₁ with pendingCalls := calls } : Generator).resolved line name values.reverse := by
  have hcount := argumentCount_eq h
  rw [Generator.argumentCount, Generator.pop_eq h] at hcount
  simp only [resolveCall, ends_bind, ends_pop, ends_get, ends_modify, Generator.pop_eq h]
  rw [hcount]
  refine (ends_takeValues_eq (g := { g with stack := values ++ st }) rfl).mono ?_
  rintro _ g₁ ⟨rfl, h₁⟩
  have hcalls : g₁.pendingCalls = name :: calls := by
    obtain ⟨_, _, rfl⟩ := h₁.frame
    exact hc
  have htook : Took line values g st g₁ := h₁
  simp only [hcalls, List.headD_cons, List.tail_cons]
  refine Ends.mono ?_ fun _ _ (heq : _ = Generator.resolved _ _ _ _) => ⟨g₁, htook, heq⟩
  rw [Generator.resolved, List.length_reverse]
  cases hcallee : g₁.symbols.callee? g₁.symbols.currentScope name values.length with
  | some callee =>
    simp only [Generator.currentScope, hcallee]
    exact ends_callFunction_eq
  | none =>
    simp only [Generator.currentScope, hcallee, ends_bind, ends_report, ends_push]
    rfl

end Calls

section Results

theorem Generator.stack_called : (g.called row info arguments).stack =
    .direct g.memory.tempNext :: g.stack := by
  unfold called
  dsimp only
  split <;> simp

theorem Generator.errors_appendAll (g : Generator) (code : List Instruction) :
    (g.appendAll code).errors = g.errors := by
  induction code generalizing g with
  | nil => rfl
  | cons i code ih => exact ih (g.append (some i))

theorem Generator.errors_called : (g.called row info arguments).errors = g.errors := by
  unfold called
  dsimp only
  split <;> exact g.errors_appendAll _

theorem Generator.program_called : (g.called row info arguments).memory.program =
    g.memory.program ++
      ((callCode info arguments g.programNext g.memory.tempNext).map some).toArray := by
  have hprogram := program_appendAll g (entryCode info arguments g.programNext)
  have hfetched : ((g.appendAll (entryCode info arguments g.programNext)).withTemp.append
      (some (.assign (.direct info.result) (.direct g.memory.tempNext)))).memory.program =
        g.memory.program ++
          ((callCode info arguments g.programNext g.memory.tempNext).map some).toArray := by
    change (g.appendAll _).memory.program.push _ = _
    rw [hprogram, callCode]
    simp
  unfold called
  dsimp only
  split <;> exact hfetched

end Results

section Waiting

open Grammar (Action)

variable {x : String} {a : Action}

/-- Most actions have nothing to do with the calls that wait. -/
theorem remote_waiting (calls : List String) : Remote fun g => g.pendingCalls = calls where
  aside hg _ _ _ _ hc := hc.trans hg
  append _ hg _ := hg
  filled _ _ hg := hg
  withTemp hg _ := hg
  dropTemp _ hg := hg
  mapDefinition hg _ _ _ := hg

theorem waiting_readName : Upholds (·.pendingCalls = calls) (readName x) := by
  refine upholds_bind upholds_get fun g₁ => ?_
  have hpush := fun cell => (remote_waiting calls).push (o := .direct cell)
  split
  · exact upholds_bind (upholds_pure _) hpush
  · refine upholds_bind (upholds_bind (upholds_modifyGet fun _ hg => hg) fun row => ?_) hpush
    exact upholds_bind (fun _ hg => ends_onMemory.2 fun _ _ _ => hg) fun _ =>
      upholds_bind (upholds_modify fun _ hg => hg) fun _ => upholds_pure _

theorem waiting_startCall : Ends (startCall x) g fun _ g' =>
    g'.pendingCalls = x :: g.pendingCalls := by
  simp only [startCall, ends_bind, ends_push, ends_modify]
  rfl

/-- **The innermost call** waits no longer when it is resolved. -/
theorem waiting_resolveCall : Ends (resolveCall line) g fun _ g' =>
    g'.pendingCalls = g.pendingCalls.tail := by
  rw [resolveCall, ends_bind]
  refine ((remote_waiting _).pop g rfl).mono fun counter g₁ h₁ => ?_
  simp only [ends_bind, ends_get]
  refine ((remote_waiting _).takeValues _ g₁ h₁).mono fun arguments g₂ h₂ => ?_
  simp only [ends_modify]
  have h₃ : ({ g₂ with pendingCalls := g₂.pendingCalls.tail } : Generator).pendingCalls =
      g.pendingCalls.tail := congrArg List.tail h₂
  split
  · exact (remote_waiting _).callFunction _ h₃
  · exact upholds_bind (remote_waiting _).report (fun _ => (remote_waiting _).push) _ h₃

/-- **All other actions of a value** leave the calls that wait alone. -/
theorem waiting_perform (ha : isAside a = true ∨ a = .pushId) (hbegin : a ≠ .beginCall)
    (hdispatch : a ≠ .dispatch) :
    Upholds (·.pendingCalls = calls) (perform a x line) := by
  rcases ha with ha | rfl
  · exact (remote_waiting calls).perform ha hbegin hdispatch
  · exact waiting_readName

end Waiting

end OnePass.Emission
