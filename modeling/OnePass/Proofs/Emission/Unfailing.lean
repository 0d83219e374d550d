import OnePass.Proofs.Emission.Calm

/-!
# No action fails, but for a full zone

Loops find their row where the loop keyword is reserved, returns and the ends of bodies
find the function of their definition, and a definition whose parameters have been read
finds its row free. What an action cannot rely on is left to the derivation: that the
parameters of a definition are read before anything else happens, that no function is
called like the loop keyword, and that loops are only opened where that is reserved.

* `secure_loopRecord`, `secure_functionOn`, `secure_publish`: the steps that could fail.
* `Action.heading`: whether the parameters of a definition are being read.
* `secure_perform`: what an action asks for and what it leaves.
* `secure_callMain`: the end of a program.
-/

namespace OnePass.Emission

open Grammar (Action)
open Names Target

section Control

variable {keywords : List String} {header : Bool} {P : Generator → Prop} {g : Generator}
  {line row : Nat}

theorem firm_holdSlot : Firm keywords header holdSlot :=
  firm_bind firm_reserve fun _ => firm_bind firm_push fun _ =>
    firm_modify fun _ h => h.mapDefinition (fun _ => rfl) fun _ => rfl

theorem firm_heldSlot : Firm keywords header heldSlot :=
  firm_bind (firm_modify fun _ h => h.mapDefinition (fun _ => rfl) fun _ => rfl) fun _ =>
    firm_bind firm_pop fun _ => firm_pure _

theorem firm_settleCondition {distance : Nat} :
    Firm keywords header (settleCondition distance) :=
  firm_bind firm_heldSlot fun _ => firm_bind firm_pop fun _ => firm_bind firm_get fun _ =>
    firm_settle

theorem firm_startElse : Firm keywords header startElse :=
  firm_bind firm_settleCondition fun _ => firm_holdSlot

theorem firm_endElse : Firm keywords header endElse :=
  firm_bind firm_heldSlot fun _ => firm_bind firm_get fun _ => firm_settle

/-- The record of the loops is changed on its row. -/
theorem Calm.setLoops (h : Calm keywords false g) (hk : keywords.contains loopKeyword = true)
    (hr : g.symbols.function? row = none) {record : LoopRecord} (hm : record.Marked) :
    Calm keywords false (g.setMeaning row (.loops record)) :=
  h.withSymbols (h.table.setMeaning (fun _ heq => by cases heq; exact ⟨hm, hk⟩) nofun)
    (stays_setMeaning hr nofun)

/-- **Where the loop keyword is reserved, the loops have their record.** -/
theorem secure_loopRecord (h : Calm keywords false g)
    (hk : keywords.contains loopKeyword = true) : Secure P loopRecord g fun p g' =>
      Calm keywords false g' ∧ g'.symbols.function? p.1 = none ∧ p.2.Marked := by
  obtain ⟨row, m, hrow, hm, hf⟩ := h.table.exists_loopRow hk
  have hlatest : g.symbols.latestIn Scopes.outermost loopKeyword false = some row := hrow
  have hnone : g.symbols.function? row = none := by
    rw [SymbolTable.function?, hm]
    cases m with
    | function info => cases hf
    | _ => rfl
  simp only [loopRecord, secure_bind, secure_get, hlatest, hm]
  rcases m with cell | info | record
  · simp only [secure_bind, secure_modify, secure_pure]
    refine ⟨h.setLoops hk hnone LoopRecord.marked_empty, ?_, LoopRecord.marked_empty⟩
    exact (SymbolTable.function?_setMeaning hnone rfl).trans hnone
  · cases hf
  · exact ⟨h, hnone, h.table.indexed.marked row record hm⟩

theorem firm_startLoop (hk : keywords.contains loopKeyword = true) :
    Firm keywords false startLoop := fun g h => by
  simp only [startLoop, secure_bind, secure_get, secure_modify]
  refine (secure_loopRecord h hk).mono ?_
  rintro ⟨row, record⟩ g₁ ⟨h₁, hr, hm⟩
  have h₂ := h₁.setLoops hk hr (hm.enter g.programNext)
  exact h₂.withSymbols (h₂.table.enterScope fun _ => hk) (.of_rows rfl)

theorem firm_leaveScope : Firm keywords header (modify (·.leaveScope)) :=
  firm_modify fun _ h => h.withSymbols h.table.leaveScope (.of_rows rfl)

theorem firm_settleLoop {slot : Option Nat} {condition : Operand} {closed : ClosedLoop} :
    Firm keywords header (settleLoop slot condition closed) :=
  firm_bind firm_emit fun _ => firm_bind firm_get fun _ => firm_bind firm_settle fun _ =>
    firm_bind (firm_forM fun _ => firm_settle) fun _ => firm_forM fun _ => firm_settle

/-- **A loop can be ended whether or not one is open.** -/
theorem firm_endLoop (hk : keywords.contains loopKeyword = true) :
    Firm keywords false endLoop := by
  refine firm_bind firm_heldSlot fun slot => firm_bind firm_pop fun condition => fun g h => ?_
  rw [secure_bind]
  refine (secure_loopRecord h hk).mono ?_
  rintro ⟨row, record⟩ g₁ ⟨h₁, hr, hm⟩
  dsimp only at hr hm ⊢
  split
  · rename_i closed outer hleave
    simp only [secure_bind, secure_modify]
    refine (firm_settleLoop _ (h₁.setLoops hk hr (hm.leave hleave))).mono fun _ g₂ h₂ => ?_
    exact firm_leaveScope g₂ h₂
  · exact firm_leaveScope g₁ h₁

/-- **A jump out of a loop** stands in a loop, and so its keyword is reserved, or is reported. -/
theorem firm_leaveLoop {outside : SemanticFault} {add : LoopRecord → Nat → LoopRecord}
    (hadd : ∀ record slot, record.Marked → (add record slot).Marked) :
    Firm keywords false (leaveLoop line outside add) := fun g h => by
  simp only [leaveLoop, secure_bind, secure_get]
  split
  · rename_i hloop
    rw [secure_bind]
    have hk : keywords.contains loopKeyword = true := by
      by_contra hc
      rw [Bool.not_eq_true] at hc
      exact h.table.loopless hc _ (eq_of_beq hloop)
    refine secure_reserve h ?_
    rw [secure_bind]
    refine (secure_loopRecord (h.append none) hk).mono ?_
    rintro ⟨row, record⟩ g₁ ⟨h₁, hr, hm⟩
    exact h₁.setLoops hk hr (hadd record g.programNext hm)
  · exact h.report line outside

end Control

section Functions

variable {keywords : List String} {header : Bool} {P : Generator → Prop} {g : Generator}
  {line row : Nat} {name : String}

/-- **A row that stands for a function has it.** -/
theorem secure_functionOn (hr : (g.symbols.function? row).isSome) :
    Secure P (functionOn row) g fun info g' => g' = g ∧ g.symbols.function? row = some info := by
  obtain ⟨info, hinfo⟩ := Option.isSome_iff_exists.1 hr
  simp only [functionOn, secure_bind, secure_get, hinfo]
  exact ⟨rfl, rfl⟩

/-- **A definition begins** with a row that is free, and reads its parameters. -/
theorem secure_startFunction (h : Calm keywords false g)
    (hname : keywords.contains loopKeyword = true → name ≠ loopKeyword) :
    Secure (Calm keywords false) (startFunction name) g fun _ g' => Calm keywords true g' := by
  simp only [startFunction, secure_bind, secure_modifyGet, secure_get, secure_modify]
  refine secure_reserve h ?_
  have h₁ := h.append none
  refine secure_takeCell h₁ fun result m₁ => ?_
  have h₂ := h₁.withMemory m₁
  refine secure_takeCell h₂ fun returnCell m₂ => ?_
  have h₃ := h₂.withMemory m₂
  generalize ({ { g.append none with memory := m₁ } with memory := m₂ } : Generator) = g₁ at h₃ ⊢
  have h₄ := h₃.rowFor name (· = .unused)
  obtain ⟨hcarries, -⟩ := SymbolTable.rowFor_spec g₁.symbols name .identifier (· = .unused)
  obtain ⟨m, hm, hunused⟩ := SymbolTable.meaning?_rowFor g₁.symbols name .identifier (· = .unused)
  have hfree : m = .unused := by simpa using hunused
  subst hfree
  have hrow : keywords.contains loopKeyword = true →
      (g₁.rowFor name (· = .unused)).2.symbols.name? (g₁.rowFor name (· = .unused)).1 ≠
        some loopKeyword := fun hk hc => by
    have hsame := Option.some.inj (hcarries.symm.trans hc)
    exact hname hk hsame
  exact ⟨h₄.table.enterScope (fun hc => by cases hc), ⟨⟨rfl, ⟨none, hm⟩, hrow⟩, h₄.standing⟩, h₄.last⟩

theorem firm_addParameter : Firm keywords header (addParameter name) :=
  firm_bind firm_bindFresh fun _ => firm_modify fun _ h => h.mapDefinition (fun _ => rfl)
    fun d => by rw [Option.isSome_map]

/-- A published definition is left as it is. -/
theorem secure_publish_published (h : Calm keywords false g) :
    Secure P publish g fun _ g' => g' = g := by
  have hstanding := h.standing
  simp only [publish, secure_bind, secure_get]
  cases hdefs : g.definitions with
  | nil => rfl
  | cons d rest =>
    rw [hdefs] at hstanding
    have hheader : d.header = none := (hstanding d List.mem_cons_self).1
    simp only [hheader]
    rfl

/-- **The function is put on its row,** which has been free since its definition began. -/
theorem secure_publish (h : Calm keywords true g) :
    Secure P publish g fun _ g' => Calm keywords false g' := by
  have hstanding := h.standing
  simp only [publish, secure_bind, secure_get]
  cases hdefs : g.definitions with
  | nil =>
    rw [hdefs] at hstanding
    exact hstanding.elim
  | cons d rest =>
    rw [hdefs] at hstanding
    obtain ⟨⟨hsome, ⟨cell, hm⟩, hname⟩, hrest⟩ := hstanding
    obtain ⟨info, hinfo⟩ := Option.isSome_iff_exists.1 hsome
    have hmeaning : (g.mapDefinition fun d => { d with header := none }).symbols.meaning? d.row =
        some (.variable cell) := hm
    simp only [hinfo, giveMeaning, secure_bind, secure_modify, secure_get, hmeaning,
      Meaning.becomeFunction, Meaning.isVariable, if_true]
    have hnew : ∀ info', (g.symbols.setMeaning d.row (.function info')).function? d.row =
        some info' := fun info' => by
      rw [SymbolTable.function?, SymbolTable.meaning?_setMeaning, if_pos rfl, hm]
      rfl
    refine ⟨h.table.setMeaning (fun _ hc => by cases hc) fun _ => hname, ?_, fun row hr => ?_⟩
    · have hdefinitions : ((g.mapDefinition fun d => { d with header := none }).setMeaning d.row
          (.function { info with start := g.programNext })).definitions =
            { d with header := none } :: rest := by
        simp only [Generator.setMeaning, Generator.mapDefinition, hdefs]
      rw [hdefinitions]
      refine List.forall_mem_cons.2 ⟨⟨rfl, ?_⟩, fun d' hd' => (hrest d' hd').stays stays_setFunction⟩
      exact Option.isSome_iff_exists.2 ⟨_, hnew _⟩
    · exact Nat.lt_of_lt_of_le (h.last row hr) (Nat.le_of_eq SymbolTable.size_setMeaning.symm)

/-- A return stands in no function, or in one that is on its row. -/
theorem secure_returningFrom (h : Calm keywords false g) :
    Secure P returningFrom g fun row? g' => Calm keywords false g' ∧
      ∀ row, row? = some row → (g'.symbols.function? row).isSome := by
  have hstanding := h.standing
  simp only [returningFrom, secure_bind, secure_get]
  cases hdefs : g.definitions with
  | nil => exact ⟨h, fun _ hc => by cases hc⟩
  | cons d rest =>
    rw [hdefs] at hstanding
    have hd := (hstanding d List.mem_cons_self).2
    dsimp only
    split
    · refine ⟨h.mapDefinition (fun _ => rfl) fun _ => rfl, ?_⟩
      rintro _ ⟨⟩
      exact hd
    · refine ⟨h, ?_⟩
      rintro _ ⟨⟩
      exact hd

theorem secure_emitReturn {info : FunctionInfo} {value : Operand} (h : Calm keywords header g) :
    Secure (Calm keywords header) (emitReturn info value) g fun _ g' =>
      Calm keywords header g' ∧ g'.symbols = g.symbols := by
  simp only [emitReturn, secure_bind]
  have h₁ := h.append (some (.assign value (.direct info.result)))
  exact secure_emit h (secure_emit h₁ ⟨h₁.append _, rfl⟩)

/-- **A return finds the function it leaves.** -/
theorem firm_returnWith : Firm keywords false (returnWith line) := by
  refine firm_bind firm_takeValue fun value => fun g h => ?_
  rw [secure_bind]
  refine (secure_returningFrom h).mono fun row? g₁ hreturning => ?_
  obtain ⟨h₁, hrow⟩ := hreturning
  cases row? with
  | none => exact h₁
  | some row =>
    have hr := hrow row rfl
    simp only [secure_bind, secure_modify]
    refine (secure_functionOn hr).mono ?_
    rintro info _ ⟨rfl, -⟩
    refine (secure_emitReturn h₁).mono fun _ g₂ hemitted => ?_
    obtain ⟨h₂, hsame⟩ := hemitted
    rw [← hsame] at hr
    refine h₂.withSymbols (h₂.table.setMeaning ?_ fun _ hk => ?_) stays_setFunction
    · exact fun _ hc => by cases hc
    exact h₂.table.functions hk row hr

theorem firm_returnNothing : Firm keywords false returnNothing := fun g h => by
  rw [returnNothing, secure_bind]
  refine (secure_returningFrom h).mono fun row? g₁ hreturning => ?_
  obtain ⟨h₁, hrow⟩ := hreturning
  cases row? with
  | none => exact h₁
  | some row =>
    rw [secure_bind]
    refine (secure_functionOn (hrow row rfl)).mono ?_
    rintro info _ ⟨rfl, -⟩
    exact firm_emit _ h₁

/-- **The end of a body finds its function,** or no definition at all. -/
theorem firm_endFunction : Firm keywords false endFunction := fun g h => by
  have hstanding := h.standing
  rw [endFunction, secure_bind]
  refine (secure_publish_published h).mono fun _ g₁ hsame => ?_
  rw [hsame]
  simp only [secure_bind, secure_get]
  cases hdefs : g.definitions with
  | nil => exact h
  | cons d rest =>
    rw [hdefs] at hstanding
    obtain ⟨hd, hrest⟩ := List.forall_mem_cons.1 hstanding
    have h₁ : Calm keywords false { g with definitions := rest } := ⟨h.table, hrest, h.last⟩
    have hclose : ∀ g₂, Calm keywords false g₂ → g₂.symbols = g.symbols →
        Secure (Calm keywords false) (do
          settle (some d.aroundSlot) (.jump (← get).programNext)
          modify (·.leaveScope)
          modify ({ · with lastDefined := some d.row })) g₂ fun _ g' => Calm keywords false g' := by
      intro g₂ h₂ hsame
      simp only [secure_bind, secure_get, secure_modify]
      refine secure_settle h₂ fun m => ?_
      have h₃ := firm_leaveScope _ (h₂.withMemory m)
      refine ⟨h₃.table, h₃.standing, ?_⟩
      rintro _ ⟨⟩
      obtain ⟨info, hinfo⟩ := Option.isSome_iff_exists.1 hd.2
      have hlt := SymbolTable.lt_of_function? hinfo
      rw [← hsame] at hlt
      exact hlt
    dsimp only
    rw [secure_bind, secure_modify]
    split
    · rw [secure_bind]
      refine (secure_functionOn (g := { g with definitions := rest }) hd.2).mono ?_
      rintro info _ ⟨rfl, -⟩
      rw [secure_bind]
      exact (secure_emitReturn h₁).mono fun _ g₂ h₂ => hclose g₂ h₂.1 h₂.2
    · exact hclose _ h₁ rfl

/-- **Only functions are retired.** -/
theorem firm_retireRivals : Firm keywords false (retireRivals line) := fun g h => by
  simp only [retireRivals, secure_bind, secure_get]
  cases g.lastDefined with
  | none => exact h
  | some row =>
    have h₁ : Calm keywords false { g with lastDefined := none } :=
      ⟨h.table, h.standing, fun _ hc => by cases hc⟩
    simp only [secure_bind, secure_modify]
    have hrivals : ∀ other ∈ g.rivals row, (g.symbols.function? other).isSome :=
      fun other => Sound.function?_of_mem_rivals
    refine (secure_forM (I := fun g' => Calm keywords false g' ∧
      ∀ i, g'.symbols.function? i = g.symbols.function? i) ⟨h₁, fun _ => rfl⟩ ?_).mono
        fun _ g' h' => h'.1
    rintro other hother g₂ ⟨h₂, hsame⟩
    simp only [secure_bind, secure_report, secure_modify]
    have hr : (g₂.symbols.function? other).isSome := by
      rw [hsame]
      exact hrivals other hother
    refine ⟨?_, fun i => SymbolTable.function?_retire.trans (hsame i)⟩
    exact (h₂.withSymbols (h₂.table.retire hr) stays_retire).of_eq rfl rfl rfl

/-- **The end of a program:** `main` is looked for among the functions only. -/
theorem secure_callMain (g : Generator) :
    Secure (fun _ => True) (callMain line) g fun _ _ => True := by
  simp only [callMain, secure_bind, secure_get]
  cases hmain : (g.symbols.functionsIn Scopes.outermost mainName).head? with
  | none => trivial
  | some row =>
    have hrow := (List.mem_filter.1 (List.mem_of_mem_head? hmain)).2
    rw [Bool.and_eq_true] at hrow
    simp only [secure_bind]
    refine (secure_functionOn hrow.2).mono ?_
    rintro info _ ⟨rfl, -⟩
    simp only [jumpInto, secure_bind, secure_get]
    exact secure_emit trivial (secure_emit trivial trivial)

end Functions

/-- Whether the parameters of a definition are being read behind an action. -/
def heading (header : Bool) : Action → Bool
  | .enterFunction => true
  | .paramsDone => false
  | _ => header

variable {keywords : List String} {header : Bool} {g : Generator} {a : Action} {lexeme : String}
  {line : Nat}

/-- **No action fails, but for a full zone.** While parameters are read there are only those; a
definition is not called like the loop keyword, and loops ask for that to be reserved. -/
theorem secure_perform (h : Calm keywords header g)
    (hheader : header = true → a = .param ∨ a = .paramsDone)
    (hname : a = .enterFunction → keywords.contains loopKeyword = true → lexeme ≠ loopKeyword)
    (hloop : a = .loopBegin ∨ a = .loopEnd → keywords.contains loopKeyword = true) :
    Secure (Calm keywords header) (perform a lexeme line) g fun _ g' =>
      Calm keywords (heading header a) g' := by
  cases header with
  | true =>
    rcases hheader rfl with rfl | rfl
    · exact firm_addParameter g h
    · exact secure_publish h
  | false =>
    cases a with
    | pushId => exact firm_readName g h
    | pushNumber => exact firm_push g h
    | pushTarget => exact firm_assignTo g h
    | checkDefined => exact firm_requireCell g h
    | elementAddress => exact firm_element g h
    | elementValue => exact firm_element g h
    | listBegin => exact firm_startList g h
    | listItem => exact firm_storeItem g h
    | add => exact firm_combine g h
    | sub => exact firm_combine g h
    | mult => exact firm_combine g h
    | power => exact firm_raise g h
    | markEq => exact firm_push g h
    | markLt => exact firm_push g h
    | compare => exact firm_relate g h
    | assign => exact firm_store g h
    | print => exact firm_printValue g h
    | global => exact firm_bindGlobal g h
    | breakLoop => exact firm_leaveLoop (fun _ slot hm => hm.addBreak slot) g h
    | continueLoop => exact firm_leaveLoop (fun _ slot hm => hm.addContinue slot) g h
    | save => exact firm_holdSlot g h
    | falseJump => exact firm_settleCondition g h
    | falseJumpSave => exact firm_startElse g h
    | jump => exact firm_endElse g h
    | loopBegin => exact firm_startLoop (hloop (.inl rfl)) g h
    | loopEnd => exact firm_endLoop (hloop (.inr rfl)) g h
    | beginCall => exact firm_startCall g h
    | takeArgument => exact firm_countArgument g h
    | dispatch => exact firm_resolveCall g h
    | discardResult => exact firm_dropResult g h
    | enterFunction => exact secure_startFunction h (hname rfl)
    | param => exact firm_addParameter g h
    | paramsDone => exact (secure_publish_published h).mono fun _ _ heq => heq ▸ h
    | returnValue => exact firm_returnWith g h
    | returnVoid => exact firm_returnNothing g h
    | exitFunction => exact firm_endFunction g h
    | checkOverload => exact firm_retireRivals g h

end OnePass.Emission
