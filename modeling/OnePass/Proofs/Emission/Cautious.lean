import OnePass.Proofs.Emission.Fences
import OnePass.Proofs.Emission.Overloads

/-!
# Actions that spare return cells

Names never stand for the return cell of a function, and nor do operands. So what actions append
writes other cells, but for calls. This is so as long as no function is retired, whose cells are
handed out again.

* `Cautious`: a state whose code, names and operands are kept from return cells.
* `Cautious.ends_emit`, `Cautious.ends_freshTemp`, …: what actions are made of.
* `Cautious.ends_startFunction`, `Cautious.ends_publish`: where the fence is moved.
* `cautious_perform`: **every action spares return cells.** `cautious_ofConfig`, `Cautious.record`.
-/

namespace OnePass.Emission

open Grammar (Action)
open Names Target

/-- **A state that is kept from return cells,** with its operands, its names and the functions whose
parameters are being read. -/
structure Cautious (c : Config) (F : Fence) (slack : Nat) (g : Generator) : Prop where
  memory : F.Holds c g.memory slack
  operands : ∀ o ∈ g.stack, F.Allows c g.memory o
  rows : ∀ row meaning, g.symbols.meaning? row = some meaning → F.Suits c g.memory meaning
  headers : ∀ d ∈ g.definitions, ∀ f, d.header = some f →
    F.opened f.returnCell ∧ ∀ a ∈ f.result :: f.params, F.Leaves c g.memory a

variable {E : Setting} {c : Config} {F F' : Fence} {slack slack' line row a : Nat} {g g' : Generator}
  {m : Memory} {o : Operand} {i : Instruction} {content : Option Instruction} {name : String}
  {info : FunctionInfo}

namespace Cautious

section States

theorem relax (h : Cautious c F slack g) (k : Nat) : Cautious c F (slack + k) g :=
  { h with memory := h.memory.relax k }

/-- The operands, the errors and the void results may change. -/
theorem aside (h : Cautious c F slack g) (hsymbols : g'.symbols = g.symbols)
    (hmemory : g'.memory = g.memory) (hdefs : g'.definitions = g.definitions)
    (hstack : ∀ o ∈ g'.stack, F.Allows c g.memory o) : Cautious c F slack g' where
  memory := hmemory ▸ h.memory
  operands o ho := hmemory ▸ hstack o ho
  rows row meaning hm := hmemory ▸ h.rows row meaning (hsymbols ▸ hm)
  headers d hd f hf := hmemory ▸ h.headers d (hdefs ▸ hd) f hf

/-- **The memory image changes,** and the fence may move. -/
theorem moves (h : Cautious c F slack g) (hm : F'.Holds c m slack') (hmoves : F.Moves c g.memory F' m)
    (hopened : ∀ d ∈ g.definitions, ∀ f, d.header = some f → F'.opened f.returnCell) :
    Cautious c F' slack' { g with memory := m } where
  memory := hm
  operands o ho := hmoves.allows (h.operands o ho)
  rows row meaning hr := hmoves.suits (h.rows row meaning hr)
  headers d hd f hf := ⟨hopened d hd f hf, fun a ha => hmoves.leaves a ((h.headers d hd f hf).2 a ha)⟩

theorem withMemory (h : Cautious c F slack g) (hm : F.Holds c m slack')
    (hmoves : F.Moves c g.memory F m) : Cautious c F slack' { g with memory := m } :=
  h.moves hm hmoves fun d hd f hf => (h.headers d hd f hf).1

theorem withSymbols (h : Cautious c F slack g) {t : SymbolTable}
    (ht : ∀ row meaning, t.meaning? row = some meaning →
      g.symbols.meaning? row = some meaning ∨ F.Suits c g.memory meaning) :
    Cautious c F slack { g with symbols := t } :=
  { h with rows := fun row meaning hm => (ht row meaning hm).elim (h.rows row meaning) id }

theorem withDefinitions (h : Cautious c F slack g) {definitions : List Definition}
    (hd : ∀ d' ∈ definitions, ∀ f, d'.header = some f → ∃ d ∈ g.definitions, d.header = some f) :
    Cautious c F slack { g with definitions := definitions } :=
  { h with
    headers := fun d' hd' f hf => by
      obtain ⟨d, hmem, hheader⟩ := hd d' hd' f hf
      exact h.headers d hmem f hheader }

/-- Of the innermost definition anything but its header may change. -/
theorem mapDefinition (h : Cautious c F slack g) {f : Definition → Definition}
    (hf : ∀ d, (f d).header = d.header) : Cautious c F slack (g.mapDefinition f) := by
  unfold Generator.mapDefinition
  cases hdefs : g.definitions with
  | nil => exact h.withDefinitions fun _ hd => absurd hd List.not_mem_nil
  | cons d rest =>
    refine h.withDefinitions (List.forall_mem_cons.2 ⟨fun info hi => ?_, fun d' hd' info hi => ?_⟩)
    · exact ⟨d, hdefs ▸ List.mem_cons_self, (hf d).symm.trans hi⟩
    · exact ⟨d', hdefs ▸ List.mem_cons_of_mem _ hd', hi⟩

theorem push (h : Cautious c F slack g) (ho : F.Allows c g.memory o) :
    Cautious c F slack (g.push o) :=
  h.aside rfl rfl rfl (List.forall_mem_cons.2 ⟨ho, h.operands⟩)

theorem report (h : Cautious c F slack g) (fault : SemanticFault) :
    Cautious c F slack (g.report line fault) := h.aside rfl rfl rfl h.operands

theorem pop (h : Cautious c F slack g) :
    Cautious c F slack g.pop.2 ∧ F.Allows c g.memory g.pop.1 := by
  have hsub := sublist_pop g
  obtain ⟨st, hst⟩ := g.pop_frame
  refine ⟨?_, ?_⟩
  · rw [hst] at hsub ⊢
    exact h.aside rfl rfl rfl fun o ho => h.operands o (hsub.subset ho)
  · cases hstack : g.stack with
    | nil =>
      have hpop : g.pop.1 = .immediate 0 := by
        simp [Generator.pop, OperandStack.pop?, OperandStack.take?, OperandStack.at?, hstack]
      rw [hpop]
      exact Fence.allows_immediate 0
    | cons o st =>
      rw [Generator.pop_eq hstack]
      exact h.operands o (hstack ▸ List.mem_cons_self)

theorem takeValue (h : Cautious c F slack g) (line : Nat) :
    Cautious c F slack (g.takeValue line).2 ∧ F.Allows c g.memory (g.takeValue line).1 := by
  obtain ⟨hpop, hallows⟩ := h.pop
  obtain ⟨voids, errors, hu⟩ := g.pop.2.useValue_eq line g.pop.1
  refine ⟨?_, hallows⟩
  change Cautious c F slack (g.pop.2.useValue line g.pop.1)
  rw [hu]
  exact hpop.aside rfl rfl rfl hpop.operands

/-- **An instruction is appended.** -/
theorem ends_emitAt (h : Cautious c F (slack + 1) g)
    (hi : Admits F.functions (F.Idle c g.memory) g.memory.program (slack + 1) i) :
    Ends (emitAt i) g fun s g' => Cautious c F slack g' ∧ F.Moves c g.memory F g'.memory ∧
      s = g.programNext ∧ g'.programNext = g.programNext + 1 := by
  rw [Emission.ends_emitAt]
  intro hlt
  have hmoves := Fence.moves_append (c := c) (F := F) g.memory (some i)
  exact ⟨h.withMemory (h.memory.append hlt fun _ hj => Option.some.inj hj ▸ hi) hmoves, hmoves, rfl,
    g.programNext_append _⟩

theorem ends_emit (h : Cautious c F (slack + 1) g)
    (hi : Admits F.functions (F.Idle c g.memory) g.memory.program (slack + 1) i) :
    Ends (emit i) g fun _ g' => Cautious c F slack g' ∧ F.Moves c g.memory F g'.memory := by
  rw [emit, ends_discard]
  exact (h.ends_emitAt hi).mono fun _ _ h' => ⟨h'.1, h'.2.1⟩

/-- **A slot is reserved.** -/
theorem ends_reserve (h : Cautious c F (slack + 1) g) :
    Ends (onMemory (·.reserve)) g fun s g' => Cautious c F slack g' ∧ s = g.programNext := by
  rw [Emission.ends_reserve]
  exact fun hlt => ⟨h.withMemory (h.memory.append hlt fun _ hi => by cases hi)
    (Fence.moves_append _ _), rfl⟩

/-- **A temporary** may be written. -/
theorem ends_freshTemp (h : Cautious E.config F slack g) : Ends freshTemp g fun cell g' =>
    Cautious E.config F slack g' ∧ F.Moves E.config g.memory F g'.memory ∧
      F.Allows E.config g'.memory (.direct cell) := by
  rw [Emission.ends_freshTemp]
  intro hle
  obtain ⟨hmemory, hleaves⟩ := h.memory.withTemp hle
  have hmoves : F.Moves E.config g.memory F
      { g.memory with tempNext := g.memory.tempNext + g.memory.unit } :=
    .of_le (Nat.le_refl _) fun _ ht => ht
  exact ⟨(h.withMemory hmemory hmoves).aside rfl rfl rfl h.operands, hmoves,
    Fence.allows_direct hleaves⟩

theorem dropTemp (h : Cautious c F slack g) (a : Nat) :
    Cautious c F slack (g.dropTemp a) ∧ F.Moves c g.memory F (g.dropTemp a).memory := by
  have hmoves : F.Moves c g.memory F (g.memory.dropTemp a) :=
    .of_le (Nat.le_of_eq (g.dataNext_dropTemp a).symm) fun t ht => by
      rwa [Fence.Reaches, Memory.program_dropTemp]
  exact ⟨h.withMemory (h.memory.dropTemp a) hmoves, hmoves⟩

/-- The slot behind the program is one that jumps may lead to. -/
theorem reaches_next (h : Cautious c F slack g) : F.Reaches g.memory g.programNext :=
  ⟨Nat.le_refl _, h.memory.code.lands (Nat.le_refl _)⟩

end States

section Names

theorem rowFor (h : Cautious c F slack g) (name : String) (reuse : Meaning → Bool) :
    Cautious c F slack (g.rowFor name reuse).2 := by
  refine h.withSymbols (t := (g.symbols.rowFor name .identifier reuse).2) fun row meaning hm => ?_
  rcases (SymbolTable.rowFor_spec g.symbols name .identifier reuse).2 with ⟨heq, -⟩ | heq
  · rw [heq] at hm
    exact .inl hm
  · rw [heq, SymbolTable.meaning?_appendRow] at hm
    split at hm
    · cases hm
      exact .inr fun a ha => by cases ha
    · exact .inl hm

theorem setMeaning (h : Cautious c F slack g) {meaning : Meaning}
    (hm : F.Suits c g.memory meaning) : Cautious c F slack (g.setMeaning row meaning) := by
  refine h.withSymbols fun i m hi => ?_
  rw [SymbolTable.meaning?_setMeaning] at hi
  split at hi
  · obtain ⟨_, -, rfl⟩ := Option.map_eq_some_iff.1 hi
    exact .inr hm
  · exact .inl hi

theorem enterScope (h : Cautious c F slack g) (region : Region) :
    Cautious c F slack (g.enterScope region) := h.withSymbols fun _ _ => .inl

theorem leaveScope (h : Cautious c F slack g) : Cautious c F slack g.leaveScope :=
  h.withSymbols fun _ _ => .inl

/-- **The cell of a variable** may be written. -/
theorem leaves_of_cell? (h : Cautious c F slack g) (ha : g.symbols.cell? row = some a) :
    F.Leaves c g.memory a := by
  obtain ⟨meaning, hm, hcell⟩ := Option.bind_eq_some_iff.1 ha
  have hsuits := h.rows row meaning hm
  cases meaning with
  | «variable» cell =>
    obtain rfl : cell = some a := hcell
    exact hsuits a rfl
  | function | loops => cases hcell

/-- **A function** can be called, and its other cells may be written. -/
theorem suits_of_function? (h : Cautious c F slack g) (hf : g.symbols.function? row = some info) :
    F.functions info.bare ∧ ∀ a ∈ info.result :: info.params, F.Leaves c g.memory a := by
  obtain ⟨meaning, hm, hfunction⟩ := Option.bind_eq_some_iff.1 hf
  have hsuits := h.rows row meaning hm
  cases meaning with
  | function f =>
    obtain rfl : f = info := Option.some.inj hfunction
    exact hsuits
  | «variable» | loops => cases hfunction

theorem ends_bindFresh (h : Cautious E.config F slack g) : Ends (bindFresh name) g fun cell g' =>
    Cautious E.config F slack g' ∧ F.Leaves E.config g'.memory cell := by
  simp only [bindFresh, ends_bind, ends_modifyGet, ends_onMemory, ends_modify, ends_pure]
  intro cell m hm
  have h' := h.rowFor name Meaning.isVariable
  obtain ⟨hmemory, hmoves, hcell, -⟩ := h'.memory.takeCell hm
  refine ⟨(h'.withMemory hmemory hmoves).setMeaning fun a ha => ?_, hcell⟩
  obtain rfl := Option.some.inj ha
  exact hcell

theorem ends_readName (h : Cautious E.config F slack g) :
    Ends (readName name) g fun _ g' => Cautious E.config F slack g' := by
  simp only [readName, ends_bind, ends_get]
  split
  · rename_i cell hcell
    obtain ⟨row, -, ha⟩ := Option.bind_eq_some_iff.1 hcell
    exact ends_push.2 (h.push (Fence.allows_direct (h.leaves_of_cell? ha)))
  · rw [ends_bind]
    exact h.ends_bindFresh.mono fun cell g' h' =>
      ends_push.2 (h'.1.push (Fence.allows_direct h'.2))

theorem ends_assignTo (h : Cautious E.config F slack g) :
    Ends (assignTo name) g fun _ g' => Cautious E.config F slack g' := by
  simp only [assignTo, ends_bind, ends_get]
  split
  · rename_i cell hcell
    obtain ⟨s, -, hs⟩ := List.exists_of_findSome?_eq_some hcell
    obtain ⟨row, -, ha⟩ := Option.bind_eq_some_iff.1 hs
    exact ends_push.2 (h.push (Fence.allows_direct (h.leaves_of_cell? ha)))
  · rw [ends_bind]
    exact h.ends_bindFresh.mono fun cell g' h' =>
      ends_push.2 (h'.1.push (Fence.allows_direct h'.2))

theorem ends_bindGlobal (h : Cautious c F slack g) :
    Ends (bindGlobal name line) g fun _ g' => Cautious c F slack g' := by
  simp only [bindGlobal, ends_bind, ends_get]
  split
  · exact (ends_pure _).2 h
  · split
    · exact ends_report.2 (h.report _)
    · rename_i cell hcell
      obtain ⟨i, -, ha⟩ := Option.bind_eq_some_iff.1 hcell
      simp only [ends_bind, ends_modifyGet, ends_modify]
      refine (h.rowFor name Meaning.isVariable).setMeaning fun a hmem => ?_
      obtain rfl := Option.some.inj hmem
      exact h.leaves_of_cell? ha

end Names

section Values

theorem ends_operate (h : Cautious E.config F 0 g) {op : Opcode} {left right : Operand}
    (hop : op = .add ∨ op = .sub ∨ op = .mult ∨ op = .eq ∨ op = .lt) :
    Ends (operate op left right) g fun _ g' => Cautious E.config F 0 g' := by
  rw [operate, ends_bind]
  refine h.ends_freshTemp.mono ?_
  rintro result g₁ ⟨h₁, _, hresult⟩
  rw [ends_bind]
  refine ((h₁.relax 1).ends_emit (Fence.admits_binary hop _ _ hresult)).mono ?_
  rintro _ g₂ ⟨h₂, hmoves⟩
  exact ends_push.2 (h₂.push (hmoves.allows hresult))

theorem ends_combine (h : Cautious E.config F 0 g) {op : Opcode}
    (hop : op = .add ∨ op = .sub ∨ op = .mult ∨ op = .eq ∨ op = .lt) :
    Ends (combine op line) g fun _ g' => Cautious E.config F 0 g' := by
  simp only [combine, ends_bind, ends_takeValue]
  exact ((h.takeValue line).1.takeValue line).1.ends_operate hop

theorem ends_relate (h : Cautious E.config F 0 g) :
    Ends (relate line) g fun _ g' => Cautious E.config F 0 g' := by
  simp only [relate, ends_bind, ends_takeValue, ends_pop]
  refine ((h.takeValue line).1.pop.1.takeValue line).1.ends_operate ?_
  unfold relation
  split
  · exact .inr (.inr (.inr (.inl rfl)))
  · exact .inr (.inr (.inr (.inr rfl)))

theorem ends_element (h : Cautious E.config F 0 g) {asValue : Bool} :
    Ends (element line asValue) g fun _ g' => Cautious E.config F 0 g' := by
  simp only [element, ends_bind, ends_takeValue, ends_get]
  refine ((h.takeValue line).1.takeValue line).1.ends_freshTemp.mono ?_
  rintro offset g₁ ⟨h₁, _, hoffset⟩
  refine ((h₁.relax 1).ends_emit (Fence.admits_binary (.inr (.inr (.inl rfl))) _ _ hoffset)).mono ?_
  rintro _ g₂ ⟨h₂, _⟩
  refine h₂.ends_freshTemp.mono ?_
  rintro address g₃ ⟨h₃, _, haddress⟩
  refine ((h₃.relax 1).ends_emit (Fence.admits_binary (.inl rfl) _ _ haddress)).mono ?_
  rintro _ g₄ ⟨h₄, hmoves⟩
  refine ends_push.2 (h₄.push ?_)
  split
  · exact Fence.allows_indirect _
  · exact hmoves.allows haddress

/-- **A power** jumps within its own seven slots. -/
theorem ends_raise (h : Cautious E.config F 0 g) :
    Ends (raise line) g fun _ g' => Cautious E.config F 0 g' := by
  simp only [raise, ends_bind, ends_takeValue]
  refine ((h.takeValue line).1.takeValue line).1.ends_freshTemp.mono ?_
  rintro result g₁ ⟨h₁, _, hresult⟩
  refine h₁.ends_freshTemp.mono ?_
  rintro counter g₂ ⟨h₂, l₂, hcounter⟩
  refine h₂.ends_freshTemp.mono ?_
  rintro running g₃ ⟨h₃, l₃, hrunning⟩
  refine ((h₃.relax 7).ends_emit (Fence.admits_assign _ ((l₂.trans l₃).allows hresult))).mono ?_
  rintro _ g₄ ⟨h₄, l₄⟩
  refine (h₄.ends_emit (Fence.admits_assign _ ((l₃.trans l₄).allows hcounter))).mono ?_
  rintro _ g₅ ⟨h₅, l₅⟩
  have l₃₅ := l₄.trans l₅
  have hbegin := h₅.reaches_next
  refine (h₅.ends_emitAt (Fence.admits_binary (.inr (.inr (.inr (.inr rfl)))) _ _
    (l₃₅.allows hrunning))).mono ?_
  rintro _ g₆ ⟨h₆, l₆, rfl, hnext⟩
  -- the jump out leads behind the five slots to come
  refine (h₆.ends_emit (Fence.admits_jumpIfFalse _ ?_ ?_ (h₆.memory.code.lands ?_))).mono ?_
  · have hsize := h₅.memory.size_le
    have hnext : g₅.programNext = g₅.memory.program.size := rfl
    omega
  · change _ ≤ g₆.programNext + _
    omega
  · change g₆.programNext ≤ _
    omega
  rintro _ g₇ ⟨h₇, l₇⟩
  have l₃₇ := (l₃₅.trans l₆).trans l₇
  refine (h₇.ends_emit (Fence.admits_binary (.inr (.inr (.inl rfl))) _ _
    (((l₂.trans l₃).trans l₃₇).allows hresult))).mono ?_
  rintro _ g₈ ⟨h₈, l₈⟩
  refine (h₈.ends_emit (Fence.admits_binary (.inl rfl) _ _
    (((l₃.trans l₃₇).trans l₈).allows hcounter))).mono ?_
  rintro _ g₉ ⟨h₉, l₉⟩
  have hcheck := (((l₆.trans l₇).trans l₈).trans l₉).reaches _ hbegin
  refine (h₉.ends_emit (Fence.admits_jump ?_ (Nat.le_succ_of_le hcheck.1) hcheck.2)).mono ?_
  · have hsize := h₉.memory.size_le
    have hle := hcheck.1
    omega
  rintro _ g₁₀ ⟨h₁₀, l₁₀⟩
  simp only [ends_dropTemp, ends_push]
  obtain ⟨h₁₁, l₁₁⟩ := h₁₀.dropTemp running
  obtain ⟨h₁₂, l₁₂⟩ := h₁₁.dropTemp counter
  have l₃₁₂ := (((((l₃₇.trans l₈).trans l₉).trans l₁₀).trans l₁₁).trans l₁₂)
  exact h₁₂.push (((l₂.trans l₃).trans l₃₁₂).allows hresult)

theorem ends_store (h : Cautious c F 0 g) :
    Ends (store line) g fun _ g' => Cautious c F 0 g' := by
  simp only [store, ends_bind, ends_takeValue, ends_pop, ends_get]
  obtain ⟨h₁, htarget⟩ := (h.takeValue line).1.pop
  refine ((h₁.relax 1).ends_emit (Fence.admits_assign _ fun hmode a ha => ?_)).mono fun _ _ h₂ => h₂.1
  rw [Generator.memory_pop]
  -- what is written through is no cell of its own
  unfold writtenThrough at hmode ha
  split at hmode
  · cases hmode
  · rename_i hnot
    rw [if_neg hnot] at ha
    exact htarget hmode a ha

theorem ends_startList (h : Cautious c F slack g) :
    Ends startList g fun _ g' => Cautious c F slack g' := by
  simp only [startList, ends_bind, ends_get, ends_push]
  exact h.push (Fence.allows_immediate _)

theorem ends_storeItem (h : Cautious E.config F 0 g) :
    Ends (storeItem line) g fun _ g' => Cautious E.config F 0 g' := by
  simp only [storeItem, ends_bind, ends_takeValue, ends_onMemory]
  intro cell m hm
  have h₁ := (h.takeValue line).1
  obtain ⟨hmemory, hmoves, hcell, -⟩ := h₁.memory.takeNextCell hm
  exact (((h₁.withMemory hmemory hmoves).relax 1).ends_emit
    (Fence.admits_assign _ (Fence.allows_direct hcell))).mono fun _ _ h₂ => h₂.1

theorem ends_printValue (h : Cautious c F 0 g) :
    Ends (printValue line) g fun _ g' => Cautious c F 0 g' := by
  simp only [printValue, ends_bind, ends_takeValue]
  exact (((h.takeValue line).1.relax 1).ends_emit (Fence.admits_print _)).mono fun _ _ h₁ => h₁.1

end Values

section Calls

theorem ends_takeValues (h : Cautious c F slack g) (count : Nat) :
    Ends (takeValues line count) g fun _ g' => Cautious c F slack g' := by
  induction count generalizing g with
  | zero => exact (ends_pure _).2 h
  | succ count ih =>
    simp only [takeValues, ends_bind, ends_takeValue, ends_pure]
    exact ih (h.takeValue line).1

theorem ends_startCall (h : Cautious c F slack g) :
    Ends (startCall name) g fun _ g' => Cautious c F slack g' := by
  simp only [startCall, ends_bind, ends_push, ends_modify]
  have hpush := h.push (Fence.allows_immediate 0)
  exact hpush.aside rfl rfl rfl hpush.operands

theorem ends_countArgument (h : Cautious c F slack g) :
    Ends countArgument g fun _ g' => Cautious c F slack g' := by
  simp only [countArgument, ends_bind, ends_modifyGet, ends_push]
  split
  · rename_i o rest hrest
    have hsub := sublist_take hrest
    have h₁ : Cautious c F slack { g with stack := rest } :=
      h.aside rfl rfl rfl fun o ho => h.operands o (hsub.subset ho)
    exact h₁.push (Fence.allows_immediate _)
  · exact h.push (Fence.allows_immediate _)

/-- **A call** stores the slot behind it where its function returns to. -/
theorem ends_jumpInto (h : Cautious E.config F 0 g) (hf : F.functions info.bare) :
    Ends (jumpInto info) g fun _ g' => Cautious E.config F 0 g' := by
  simp only [jumpInto, ends_bind, ends_get, Emission.ends_emit]
  intro _ hlt
  rw [Generator.programNext_append] at hlt
  exact h.withMemory (h.memory.call (f := info.bare) hf hlt)
    ((Fence.moves_append g.memory _).trans (Fence.moves_append _ _))

theorem ends_callFunction (h : Cautious E.config F 0 g) {arguments : List Operand}
    (hf : g.symbols.function? row = some info) :
    Ends (callFunction row info arguments) g fun _ g' => Cautious E.config F 0 g' := by
  obtain ⟨hfunction, hcells⟩ := h.suits_of_function? hf
  simp only [callFunction, ends_bind]
  refine (ends_forM (P := fun g' => Cautious E.config F 0 g' ∧
    F.Moves E.config g.memory F g'.memory) ⟨h, .of_le (Nat.le_refl _) fun _ ht => ht⟩ ?_).mono ?_
  · rintro ⟨argument, cell⟩ hmem g₁ ⟨h₁, l₁⟩
    have hcell := hcells cell (List.mem_cons_of_mem _ (List.of_mem_zip hmem).2)
    have hallows := Fence.allows_direct (l₁.leaves cell hcell)
    exact ((h₁.relax 1).ends_emit (Fence.admits_assign _ hallows)).mono fun _ g₂ h₂ =>
      ⟨h₂.1, l₁.trans h₂.2⟩
  rintro _ g₁ ⟨h₁, -⟩
  refine (h₁.ends_jumpInto hfunction).mono fun _ g₂ h₂ => ?_
  refine h₂.ends_freshTemp.mono ?_
  rintro result g₃ ⟨h₃, _, hresult⟩
  refine ((h₃.relax 1).ends_emit (Fence.admits_assign _ hresult)).mono ?_
  rintro _ g₄ ⟨h₄, l₄⟩
  have hpush := l₄.allows hresult
  simp only [ends_get]
  split
  · simp only [ends_bind, ends_modify, ends_push]
    have h₅ : Cautious E.config F 0 (g₄.markVoid result) := h₄.aside rfl rfl rfl h₄.operands
    exact h₅.push hpush
  · exact ends_push.2 (h₄.push hpush)

theorem ends_resolveCall (h : Cautious E.config F 0 g) :
    Ends (resolveCall line) g fun _ g' => Cautious E.config F 0 g' := by
  simp only [resolveCall, ends_bind, ends_pop, ends_get, ends_modify]
  refine (h.pop.1.ends_takeValues _).mono fun arguments g₁ h₁ => ?_
  have h₂ : Cautious E.config F 0 { g₁ with pendingCalls := g₁.pendingCalls.tail } :=
    h₁.aside rfl rfl rfl h₁.operands
  split
  · rename_i row info hc
    exact h₂.ends_callFunction (function?_of_callee? hc).1
  · simp only [ends_bind, ends_report, ends_push]
    exact (h₂.report _).push (Fence.allows_immediate 0)

theorem ends_dropResult (h : Cautious c F slack g) :
    Ends dropResult g fun _ g' => Cautious c F slack g' := by
  simp only [dropResult, ends_bind, ends_pop, ends_get]
  have h₁ := h.pop.1
  split
  · split
    · simp only [ends_bind, ends_modify, ends_dropTemp]
      have hclear : ∀ cell, Cautious c F slack (g.pop.2.clearVoid cell) := fun _ =>
        h₁.aside rfl rfl rfl h₁.operands
      exact ((hclear _).dropTemp _).1
    · exact (ends_pure _).2 h₁
  · exact (ends_pure _).2 h₁

/-- **The end of a program** calls a function, if there is one. -/
theorem ends_callMain (h : Cautious E.config F 0 g) :
    Ends (callMain line) g fun _ g' => Cautious E.config F 0 g' := by
  simp only [callMain, ends_bind, ends_get]
  split
  · rw [ends_bind]
    refine ends_functionOn.mono ?_
    rintro info _ ⟨rfl, hf⟩
    exact h.ends_jumpInto (h.suits_of_function? hf).1
  · exact ends_report.2 (h.report _)

end Calls

section Jumps

/-- **A reserved slot is filled** with a jump. -/
theorem ends_settle (h : Cautious c F slack g) {slot : Option Nat}
    (hi : Admits F.functions (F.Idle c g.memory) g.memory.program slack i)
    (hnone : i.target? = none) : Ends (settle slot i) g fun _ g' =>
      Cautious c F slack g' ∧ F.Moves c g.memory F g'.memory := by
  have hself : F.Moves c g.memory F g.memory := .of_le (Nat.le_refl _) fun _ ht => ht
  cases slot with
  | none => exact (ends_pure _).2 ⟨h, hself⟩
  | some slot =>
    rw [Emission.ends_settle]
    split
    · rename_i hr
      have hmoves : F.Moves c g.memory F
          { g.memory with program := g.memory.program.setIfInBounds slot (some i) } :=
        Fence.moves_fill g.memory hnone
      exact ⟨h.withMemory (h.memory.fill (beq_iff_eq.1 hr) hi hnone) hmoves, hmoves⟩
    · exact ⟨h, hself⟩

theorem ends_holdSlot (h : Cautious c F (slack + 1) g) :
    Ends holdSlot g fun _ g' => Cautious c F slack g' := by
  simp only [holdSlot, ends_bind, ends_push, ends_modify]
  exact h.ends_reserve.mono fun slot g₁ h₁ =>
    (h₁.1.push (Fence.allows_immediate _)).mapDefinition fun _ => rfl

theorem ends_heldSlot (h : Cautious c F slack g) :
    Ends heldSlot g fun _ g' => Cautious c F slack g' := by
  simp only [heldSlot, ends_bind, ends_modify, ends_pop, ends_pure]
  exact (h.mapDefinition (f := fun d => { d with heldSlots := d.heldSlots - 1 }) fun _ => rfl).pop.1

/-- A slot that is not far behind the program is a word. -/
theorem lt_of_le_programNext (h : Cautious E.config F slack g) {t k : Nat}
    (ht : t ≤ g.programNext + k) (hk : k < 2 ^ 63) : t < 2 ^ 64 := by
  have hsize := h.memory.size_le
  have hnext : g.programNext = g.memory.program.size := rfl
  omega

/-- **A condition's slot** leads behind the program so far. -/
theorem ends_settleCondition (h : Cautious E.config F 0 g) {distance : Nat}
    (hdistance : distance < 2 ^ 63) : Ends (settleCondition distance) g fun _ g' =>
      Cautious E.config F distance g' := by
  simp only [settleCondition, ends_bind, ends_pop, ends_get]
  refine h.ends_heldSlot.mono fun slot g₁ h₁ => ?_
  have h₂ := h₁.pop.1.relax distance
  rw [Nat.zero_add] at h₂
  refine (h₂.ends_settle (Fence.admits_jumpIfFalse _ (h₂.lt_of_le_programNext (Nat.le_refl _)
    hdistance) (Nat.le_refl _) (h₂.memory.code.lands (Nat.le_add_right _ _))) rfl).mono
      fun _ _ h₃ => h₃.1

theorem ends_startElse (h : Cautious E.config F 0 g) :
    Ends startElse g fun _ g' => Cautious E.config F 0 g' := by
  rw [startElse, ends_bind]
  exact (h.ends_settleCondition (by decide)).mono fun _ g₁ h₁ => h₁.ends_holdSlot

/-- A jump to where jumps may lead may be put into the program. -/
theorem admits_reached (h : Cautious E.config F slack g) {t : Nat} (ht : F.Reaches g.memory t) :
    Admits F.functions (F.Idle E.config g.memory) g.memory.program slack (.jump t) :=
  Fence.admits_jump (h.lt_of_le_programNext (k := 0) ht.1 (by decide))
    (Nat.le_add_right_of_le ht.1) ht.2

theorem ends_endElse (h : Cautious E.config F 0 g) :
    Ends endElse g fun _ g' => Cautious E.config F 0 g' := by
  simp only [endElse, ends_bind, ends_get]
  refine h.ends_heldSlot.mono fun slot g₁ h₁ => ?_
  exact (h₁.ends_settle (h₁.admits_reached h₁.reaches_next) rfl).mono fun _ _ h₂ => h₂.1

/-- **The loops begin** where jumps may lead. -/
theorem ends_loopRecord (h : Cautious c F slack g) : Ends loopRecord g fun x g' =>
    Cautious c F slack g' ∧ g'.memory = g.memory ∧ ∀ t ∈ x.2.starts, F.Reaches g.memory t := by
  simp only [loopRecord, ends_bind, ends_get]
  split
  · exact ends_defect
  · split
    · rename_i record hm
      exact (ends_pure _).2 ⟨h, rfl, h.rows _ _ hm⟩
    · simp only [ends_bind, ends_modify, ends_pure]
      have hnone : ∀ t ∈ LoopRecord.empty.starts, F.Reaches g.memory t := fun _ ht =>
        absurd ht List.not_mem_nil
      exact ⟨h.setMeaning hnone, rfl, hnone⟩
    · exact ends_defect

theorem ends_startLoop (h : Cautious c F slack g) :
    Ends startLoop g fun _ g' => Cautious c F slack g' := by
  simp only [startLoop, ends_bind, ends_get, ends_modify]
  refine h.ends_loopRecord.mono ?_
  rintro ⟨row, record⟩ g₁ ⟨h₁, hmemory, hstarts⟩
  have hsuits : F.Suits c g₁.memory (.loops (record.enter g.programNext)) := by
    rw [hmemory]
    exact List.forall_mem_cons.2 ⟨h.reaches_next, hstarts⟩
  exact (h₁.setMeaning hsuits).enterScope _

theorem ends_settleAll (h : Cautious E.config F slack g) {slots : List Nat} {t : Nat}
    (ht : F.Reaches g.memory t) : Ends (slots.forM fun s => settle (some s) (.jump t)) g fun _ g' =>
      Cautious E.config F slack g' ∧ F.Moves E.config g.memory F g'.memory := by
  refine ends_forM (P := fun g' => Cautious E.config F slack g' ∧
    F.Moves E.config g.memory F g'.memory) ⟨h, .of_le (Nat.le_refl _) fun _ ht => ht⟩ ?_
  rintro s - g₁ ⟨h₁, l₁⟩
  exact (h₁.ends_settle (h₁.admits_reached (l₁.reaches t ht)) rfl).mono fun _ _ h₂ =>
    ⟨h₂.1, l₁.trans h₂.2⟩

theorem ends_settleLoop (h : Cautious E.config F 0 g) {slot : Option Nat} {condition : Operand}
    {closed : ClosedLoop} (hstart : F.Reaches g.memory closed.start) :
    Ends (settleLoop slot condition closed) g fun _ g' => Cautious E.config F 0 g' := by
  simp only [settleLoop, ends_bind, ends_get]
  refine ((h.relax 1).ends_emit ((h.relax 1).admits_reached hstart)).mono ?_
  rintro _ g₁ ⟨h₁, l₁⟩
  have hnext := h₁.reaches_next
  refine (h₁.ends_settle (Fence.admits_jumpIfFalse _ (h₁.lt_of_le_programNext (k := 0) hnext.1
    (by decide)) hnext.1 hnext.2) rfl).mono ?_
  rintro _ g₂ ⟨h₂, l₂⟩
  refine (h₂.ends_settleAll (l₂.reaches _ hnext)).mono ?_
  rintro _ g₃ ⟨h₃, l₃⟩
  exact (h₃.ends_settleAll (((l₁.trans l₂).trans l₃).reaches _ hstart)).mono fun _ _ h₄ => h₄.1

theorem ends_endLoop (h : Cautious E.config F 0 g) :
    Ends endLoop g fun _ g' => Cautious E.config F 0 g' := by
  simp only [endLoop, ends_bind, ends_pop]
  refine h.ends_heldSlot.mono fun slot g₁ h₁ => ?_
  refine h₁.pop.1.ends_loopRecord.mono ?_
  rintro ⟨row, record⟩ g₂ ⟨h₂, hmemory, hstarts⟩
  rw [← hmemory] at hstarts
  dsimp only
  split
  · rename_i closed outer hleave
    -- the innermost loop is closed, and those around it stay open
    have hsplit : record.starts = closed.start :: outer.starts := by
      unfold LoopRecord.leave? at hleave
      split at hleave
      · cases hleave
      · rename_i heq
        cases hleave
        exact heq
    rw [hsplit] at hstarts
    obtain ⟨hclosed, houter⟩ := List.forall_mem_cons.1 hstarts
    simp only [ends_bind, ends_modify]
    have h₃ : Cautious E.config F 0 (g₂.setMeaning row (.loops outer)) := h₂.setMeaning houter
    exact (h₃.ends_settleLoop hclosed).mono fun _ g₄ h₄ => h₄.leaveScope
  · exact ends_modify.2 h₂.leaveScope

theorem ends_leaveLoop (h : Cautious c F 0 g) {outside : SemanticFault}
    {add : LoopRecord → Nat → LoopRecord}
    (hadd : ∀ record slot, (add record slot).starts = record.starts) :
    Ends (leaveLoop line outside add) g fun _ g' => Cautious c F 0 g' := by
  simp only [leaveLoop, ends_bind, ends_get]
  split
  · rw [ends_bind]
    refine (h.relax 1).ends_reserve.mono ?_
    rintro slot g₁ ⟨h₁, _⟩
    rw [ends_bind]
    refine h₁.ends_loopRecord.mono ?_
    rintro ⟨row, record⟩ g₂ ⟨h₂, hmemory, hstarts⟩
    rw [← hmemory] at hstarts
    refine ends_modify.2 (h₂.setMeaning ?_)
    intro t ht
    rw [hadd] at ht
    exact hstarts t ht
  · exact ends_report.2 (h.report _)

end Jumps

section Functions

/-- **A return** writes the cell for the result and jumps through the one to return. -/
theorem ends_emitReturn (h : Cautious c F 0 g) {value : Operand}
    (hresult : F.Leaves c g.memory info.result) : Ends (emitReturn info value) g fun _ g' =>
      Cautious c F 0 g' ∧ F.Moves c g.memory F g'.memory := by
  rw [emitReturn, ends_bind]
  refine ((h.relax 2).ends_emit (Fence.admits_assign _ (Fence.allows_direct hresult))).mono ?_
  rintro _ g₁ ⟨h₁, l₁⟩
  exact (h₁.ends_emit (Fence.admits_jumpThrough _)).mono fun _ g₂ h₂ => ⟨h₂.1, l₁.trans h₂.2⟩

theorem ends_returningFrom (h : Cautious c F slack g) :
    Ends returningFrom g fun _ g' => Cautious c F slack g' := by
  simp only [returningFrom, ends_bind, ends_get]
  split
  · exact (ends_pure _).2 h
  · split
    · simp only [ends_bind, ends_modify, ends_pure]
      exact h.mapDefinition fun _ => rfl
    · simp only [ends_pure]
      exact h

/-- **A function that returns a value** is the same but for that. -/
theorem ends_returnWith (h : Cautious c F 0 g) :
    Ends (returnWith line) g fun _ g' => Cautious c F 0 g' := by
  simp only [returnWith, ends_bind, ends_takeValue]
  refine (h.takeValue line).1.ends_returningFrom.mono fun row? g₁ h₁ => ?_
  split
  · exact (ends_pure _).2 h₁
  · simp only [ends_bind]
    refine ends_functionOn.mono ?_
    rintro info _ ⟨rfl, hf⟩
    obtain ⟨hfunction, hcells⟩ := h₁.suits_of_function? hf
    refine (h₁.ends_emitReturn (hcells _ List.mem_cons_self)).mono ?_
    rintro _ g₂ ⟨h₂, l₂⟩
    exact ends_modify.2 (h₂.setMeaning ⟨hfunction, fun a ha => l₂.leaves a (hcells a ha)⟩)

theorem ends_returnNothing (h : Cautious c F 0 g) :
    Ends returnNothing g fun _ g' => Cautious c F 0 g' := by
  simp only [returnNothing, ends_bind]
  refine h.ends_returningFrom.mono fun row? g₁ h₁ => ?_
  split
  · exact (ends_pure _).2 h₁
  · simp only [ends_bind]
    refine ends_functionOn.mono ?_
    rintro info _ ⟨rfl, -⟩
    exact ((h₁.relax 1).ends_emit (Fence.admits_jumpThrough _)).mono fun _ _ h₂ => h₂.1

/-- A definition more, whose parameters are being read. -/
theorem openDefinition (h : Cautious c F slack g) {d : Definition}
    (hd : ∀ f, d.header = some f →
      F.opened f.returnCell ∧ ∀ a ∈ f.result :: f.params, F.Leaves c g.memory a) :
    Cautious c F slack { g with definitions := d :: g.definitions } :=
  { h with headers := List.forall_mem_cons.2 ⟨hd, h.headers⟩ }

/-- **A definition begins.** Its cell for the slot to return to is idle. -/
theorem ends_startFunction (h : Cautious E.config F 0 g) :
    Ends (startFunction name) g fun _ g' => ∃ F', Cautious E.config F' 0 g' := by
  rw [startFunction, ends_bind]
  refine (h.relax 1).ends_reserve.mono ?_
  rintro slot g₁ ⟨h₁, _⟩
  simp only [ends_bind, ends_onMemory, ends_modifyGet, ends_get, ends_modify]
  intro result m₂ hm₂ returnCell m₃ hm₃
  obtain ⟨hmemory₂, l₂, hresult, -⟩ := h₁.memory.takeCell hm₂
  have h₂ := h₁.withMemory hmemory₂ l₂
  obtain ⟨hmemory₃, l₃⟩ := h₂.memory.opening hm₃
  have h₃ := h₂.moves hmemory₃ l₃ fun d hd f hf => .inr (h₂.headers d hd f hf).1
  refine ⟨F.opening returnCell,
    ((h₃.rowFor name (· = .unused)).enterScope _).openDefinition fun f hf => ?_⟩
  obtain rfl := Option.some.inj hf
  refine ⟨.inl rfl, fun a ha => ?_⟩
  obtain rfl := List.mem_singleton.1 ha
  exact l₃.leaves _ hresult

/-- **A parameter** is a variable of the definition. -/
theorem ends_addParameter (h : Cautious E.config F 0 g) :
    Ends (addParameter name) g fun _ g' => Cautious E.config F 0 g' := by
  simp only [addParameter, ends_bind, ends_modify]
  refine h.ends_bindFresh.mono ?_
  rintro cell g₁ ⟨h₁, hcell⟩
  unfold Generator.mapDefinition
  cases hdefs : g₁.definitions with
  | nil => exact h₁.withDefinitions fun _ hd => absurd hd List.not_mem_nil
  | cons d rest =>
    have hheaders := h₁.headers
    rw [hdefs] at hheaders
    obtain ⟨hd, hrest⟩ := List.forall_mem_cons.1 hheaders
    refine { h₁ with headers := List.forall_mem_cons.2 ⟨fun f hf => ?_, hrest⟩ }
    obtain ⟨info, hinfo, rfl⟩ := Option.map_eq_some_iff.1 hf
    obtain ⟨hopened, hcells⟩ := hd info hinfo
    refine ⟨hopened, fun a ha => ?_⟩
    rw [← List.cons_append, List.mem_append, List.mem_singleton] at ha
    rcases ha with ha | rfl
    · exact hcells a ha
    · exact hcell

/-- **The parameters have been read,** and calls find the function. -/
theorem ends_publish (h : Cautious c F 0 g) {d : Definition} {rest : List Definition}
    (hdefs : g.definitions = d :: rest) (hrest : ∀ d' ∈ rest, d'.header = none) :
    Ends publish g fun _ g' => ∃ F', Cautious c F' 0 g' := by
  simp only [publish, ends_bind, ends_get, hdefs]
  split
  · exact (ends_pure _).2 ⟨F, h⟩
  · rename_i info hinfo
    simp only [ends_bind, ends_modify, giveMeaning, ends_get]
    obtain ⟨hopened, hcells⟩ := h.headers d (hdefs ▸ List.mem_cons_self) info hinfo
    obtain ⟨hmemory, hmoves⟩ := h.memory.publishing (f := { info with start := g.programNext })
      hopened h.reaches_next
    have hmap : g.mapDefinition (fun d => { d with header := none }) =
        { g with definitions := { d with header := none } :: rest } := by
      rw [Generator.mapDefinition, hdefs]
    -- no definition is left whose parameters are being read
    have hno : ∀ d' ∈ { d with header := none } :: rest, ∀ f, d'.header ≠ some f :=
      List.forall_mem_cons.2 ⟨nofun, fun d' hd' f hf => by cases (hrest d' hd').symm.trans hf⟩
    have h₁ : Cautious c F 0 { g with definitions := { d with header := none } :: rest } :=
      h.withDefinitions fun d' hd' f hf => absurd hf (hno d' hd' f)
    have h₂ := h₁.moves hmemory hmoves fun d' hd' f hf => absurd hf (hno d' hd' f)
    rw [hmap]
    split
    · exact (ends_pure _).2 ⟨_, h₂⟩
    · split
      · rename_i hchange
        unfold Meaning.becomeFunction at hchange
        split at hchange
        · cases hchange
          exact ends_modify.2 ⟨_, h₂.setMeaning
            ⟨.inl rfl, fun a ha => hmoves.leaves a (hcells a ha)⟩⟩
        · cases hchange
      · exact ends_defect

/-- **A definition ends.** -/
theorem ends_endFunction (h : Cautious E.config F 0 g)
    (hheaders : ∀ d ∈ g.definitions, d.header = none) :
    Ends endFunction g fun _ g' => Cautious E.config F 0 g' := by
  cases hdefs : g.definitions with
  | nil =>
    simp only [endFunction, publish, ends_bind, ends_get, hdefs, ends_pure]
    exact h
  | cons d rest =>
    have hheader := hheaders d (hdefs ▸ List.mem_cons_self)
    have h₁ : Cautious E.config F 0 { g with definitions := rest } :=
      h.withDefinitions fun d' hd' f hf => ⟨d', hdefs ▸ List.mem_cons_of_mem _ hd', hf⟩
    have hclose : ∀ g₁, Cautious E.config F 0 g₁ →
        Ends (settle (some d.aroundSlot) (.jump g₁.programNext)) g₁ fun _ g₂ =>
          Cautious E.config F 0 { g₂.leaveScope with lastDefined := some d.row } := fun g₁ h₁ =>
      (h₁.ends_settle (h₁.admits_reached h₁.reaches_next) rfl).mono fun _ g₂ h₂ =>
        h₂.1.leaveScope.aside rfl rfl rfl h₂.1.operands
    simp only [endFunction, publish, ends_bind, ends_get, hdefs, hheader, ends_pure, ends_modify]
    split
    · simp only [ends_bind, ends_get, ends_modify]
      refine ends_functionOn.mono ?_
      rintro info _ ⟨rfl, hf⟩
      have hresult := (h₁.suits_of_function? hf).2 _ List.mem_cons_self
      exact (h₁.ends_emitReturn hresult).mono fun _ g₂ h₂ => hclose g₂ h₂.1
    · simp only [ends_bind, ends_get, ends_modify]
      exact hclose _ h₁

end Functions

end Cautious

/-- The parameters of the innermost definition only may be being read. -/
theorem Calm.header_eq_none {keywords : List String} {header : Bool} {d : Definition}
    {rest : List Definition} (h : Calm keywords header g) (hdefs : g.definitions = d :: rest) :
    (header = false → d.header = none) ∧ ∀ d' ∈ rest, d'.header = none := by
  have hstanding := h.standing
  rw [hdefs] at hstanding
  cases header with
  | false =>
    obtain ⟨hd, hrest⟩ := List.forall_mem_cons.1 hstanding
    exact ⟨fun _ => hd.1, fun d' hd' => (hrest d' hd').1⟩
  | true => exact ⟨nofun, fun d' hd' => (hstanding.2 d' hd').1⟩

/-- **Every action spares return cells,** as long as there are no errors. -/
theorem cautious_perform {keywords : List String} {header : Bool} {a : Action} {lexeme : String}
    (h : Cautious E.config F 0 g) (hcalm : Calm keywords header g)
    (hheader : header = true → a = .param ∨ a = .paramsDone) :
    Ends (perform a lexeme line) g fun _ g' => g'.errors = #[] → ∃ F', Cautious E.config F' 0 g' := by
  have hkeeps : ∀ {x : Emit Unit}, (Ends x g fun _ g' => Cautious E.config F 0 g') →
      Ends x g fun _ g' => g'.errors = #[] → ∃ F', Cautious E.config F' 0 g' :=
    fun hx => hx.mono fun _ _ h' _ => ⟨F, h'⟩
  have hmoves : ∀ {x : Emit Unit}, (Ends x g fun _ g' => ∃ F', Cautious E.config F' 0 g') →
      Ends x g fun _ g' => g'.errors = #[] → ∃ F', Cautious E.config F' 0 g' :=
    fun hx => hx.mono fun _ _ h' _ => h'
  cases a with
  | pushId => exact hkeeps h.ends_readName
  | pushTarget => exact hkeeps h.ends_assignTo
  | pushNumber => exact hkeeps (ends_push.2 (h.push (Fence.allows_immediate _)))
  | checkDefined =>
    refine hkeeps ?_
    simp only [perform, requireCell, ends_bind, ends_get]
    split
    · exact ends_report.2 (h.report _)
    · exact (ends_pure _).2 h
  | elementAddress => exact hkeeps h.ends_element
  | elementValue => exact hkeeps h.ends_element
  | listBegin => exact hkeeps h.ends_startList
  | listItem => exact hkeeps h.ends_storeItem
  | add => exact hkeeps (h.ends_combine (.inl rfl))
  | sub => exact hkeeps (h.ends_combine (.inr (.inl rfl)))
  | mult => exact hkeeps (h.ends_combine (.inr (.inr (.inl rfl))))
  | power => exact hkeeps h.ends_raise
  | markEq => exact hkeeps (ends_push.2 (h.push (Fence.allows_immediate _)))
  | markLt => exact hkeeps (ends_push.2 (h.push (Fence.allows_immediate _)))
  | compare => exact hkeeps h.ends_relate
  | assign => exact hkeeps h.ends_store
  | print => exact hkeeps h.ends_printValue
  | global => exact hkeeps h.ends_bindGlobal
  | breakLoop => exact hkeeps (h.ends_leaveLoop fun _ _ => rfl)
  | continueLoop => exact hkeeps (h.ends_leaveLoop fun _ _ => rfl)
  | save => exact hkeeps (h.relax 1).ends_holdSlot
  | falseJump => exact hkeeps (h.ends_settleCondition (by decide))
  | falseJumpSave => exact hkeeps h.ends_startElse
  | jump => exact hkeeps h.ends_endElse
  | loopBegin => exact hkeeps h.ends_startLoop
  | loopEnd => exact hkeeps h.ends_endLoop
  | beginCall => exact hkeeps h.ends_startCall
  | takeArgument => exact hkeeps h.ends_countArgument
  | dispatch => exact hkeeps h.ends_resolveCall
  | discardResult => exact hkeeps h.ends_dropResult
  | enterFunction => exact hmoves h.ends_startFunction
  | param => exact hkeeps h.ends_addParameter
  | paramsDone =>
    cases hdefs : g.definitions with
    | nil =>
      refine hkeeps ?_
      simp only [perform, publish, ends_bind, ends_get, hdefs, ends_pure]
      exact h
    | cons d rest => exact hmoves (h.ends_publish hdefs (hcalm.header_eq_none hdefs).2)
  | returnValue => exact hkeeps h.ends_returnWith
  | returnVoid => exact hkeeps h.ends_returnNothing
  | exitFunction =>
    refine hkeeps (h.ends_endFunction fun d hd => ?_)
    have hfalse : header = false := by
      cases header with
      | false => rfl
      | true => rcases hheader rfl with h | h <;> cases h
    have hstanding := hcalm.standing
    rw [hfalse] at hstanding
    exact (hstanding d hd).1
  | checkOverload =>
    -- a function that is retired is reported
    refine ends_retireRivals_clean.mono fun _ g' hclean hnone => ?_
    obtain ⟨last, rfl⟩ := hclean hnone
    exact ⟨F, h.aside rfl rfl rfl h.operands⟩

section Beginning

/-- A fence around nothing. -/
def Fence.empty : Fence := ⟨fun _ => False, fun _ => False⟩

/-- **There are no functions** at first, and no code. -/
theorem cautious_ofConfig : Cautious E.config .empty 0 (.ofConfig E.config) := by
  refine ⟨⟨Memory.regular_ofConfig E.zones, rfl, guarded_empty, ?_, fun _ h => h.elim,
    fun _ _ h => h.elim, fun _ h => h.elim⟩, nofun, fun row meaning hm => ?_, nofun⟩
  · rintro a (h | ⟨f, h, -⟩) <;> exact h.elim
  · obtain rfl := SymbolTable.meaning?_ofKeywords hm
    exact fun a ha => by cases ha

/-- A token that is recorded is given no meaning. -/
theorem Cautious.record (h : Cautious c F slack g) (token : Lexical.Token) :
    Cautious c F slack { g with symbols := g.symbols.record token } := by
  refine h.withSymbols fun row meaning hm => ?_
  rcases SymbolTable.record_cases g.symbols token with heq | ⟨heq, -⟩
  · rw [heq] at hm
    exact .inl hm
  · rw [heq, SymbolTable.meaning?_appendRow] at hm
    split at hm
    · cases hm
      exact .inr fun a ha => by cases ha
    · exact .inl hm

end Beginning

end OnePass.Emission
