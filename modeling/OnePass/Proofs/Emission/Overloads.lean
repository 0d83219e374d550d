import OnePass.Proofs.Emission.Faults
import OnePass.Proofs.Emission.Framing
import OnePass.Proofs.Emission.Titles
import OnePass.Proofs.Grammar.Layers

/-!
# Actions and the functions of the table

A definition begins on a row of no function, and its function is put there when its parameters
have been read. When it has ended, the functions with its signature that were defined before are
retired, with an error for each of them.

* `turning_perform`, `arities_perform`: actions that make no function.
* `ends_startFunction_row`, `ends_endFunction_row`, `ends_retireRivals_foldl`: those of definitions.
* `ends_retireRivals_clean`: if nothing is reported, nothing has been retired.
* `mem_rivals`: the rivals of a function are those with its signature.
* `Generator.Overloads`: the functions that have been defined. `overloads_perform`: **every action
  keeps account of them.**
-/

namespace OnePass.Emission

open Grammar (Action Layer)
open Names Target

section Functions

variable {g : Generator} {name x : String} {line row : Nat} {a : Action} {keywords : List String}

theorem turning_readName : Turning (readName name) := by
  refine turning_bind turning_get fun g => ?_
  split
  · exact turning_bind (turning_pure _) fun _ => turning_push
  · exact turning_bind turning_bindFresh fun _ => turning_push

theorem turning_assignTo : Turning (assignTo name) := by
  refine turning_bind turning_get fun g => ?_
  split
  · exact turning_bind (turning_pure _) fun _ => turning_push
  · exact turning_bind turning_bindFresh fun _ => turning_push

theorem turning_storeItem : Turning (storeItem line) :=
  turning_bind turning_takeValue fun _ => turning_bind turning_onMemory fun _ => turning_emit

theorem turning_bindGlobal : Turning (bindGlobal name line) := by
  refine turning_bind turning_get fun g => ?_
  split
  · exact turning_pure ()
  · split
    · exact turning_report
    · intro g hg next
      simp only [ends_bind, ends_modifyGet, ends_modify]
      have hrow : SymbolTable.Turns next _ _ :=
        SymbolTable.turns_rowFor hg name .identifier Meaning.isVariable
      have hnone := SymbolTable.function?_rowFor_isVariable g.symbols name .identifier
      exact hrow.trans (SymbolTable.turns_setMeaning hrow.orderly hnone rfl)

/-- **Most actions make no function.** -/
theorem turning_perform (hdone : a ≠ .paramsDone) (hexit : a ≠ .exitFunction) :
    Turning (perform a x line) := by
  by_cases haside : isAside a = true
  · exact turning_of_eq fun g => (Aloof.of_symbols (P := (· = g.symbols))).perform haside g rfl
  cases a with
  | pushId => exact turning_readName
  | pushTarget => exact turning_assignTo
  | listItem => exact turning_storeItem
  | global => exact turning_bindGlobal
  | breakLoop => exact turning_leaveLoop
  | continueLoop => exact turning_leaveLoop
  | loopBegin => exact turning_startLoop
  | loopEnd => exact turning_endLoop
  | enterFunction => exact turning_startFunction
  | param => exact turning_addParameter
  | returnValue => exact turning_returnWith
  | checkOverload => exact turning_retireRivals
  | paramsDone => exact absurd rfl hdone
  | exitFunction => exact absurd rfl hexit
  | _ => exact absurd rfl haside

/-- What turns whatever the next slot is makes no function, and leaves their parameters alone. -/
theorem arity_of_turns {t t' : SymbolTable} (h : ∀ next, t.Turns next t') (row : Nat) :
    (t'.function? row).map (·.arity) = (t.function? row).map (·.arity) := by
  have hbare : ∀ {f f' : FunctionInfo}, f'.bare = f.bare → f'.arity = f.arity := fun heq =>
    congrArg (·.params.length) heq
  cases hf : t.function? row with
  | some f =>
    obtain ⟨f', hf', heq⟩ := (h 0).kept row f hf
    rw [hf', Option.map_some, Option.map_some, hbare heq]
  | none =>
    cases hf' : t'.function? row with
    | none => rfl
    | some f' =>
      rcases (h (f'.start + 1)).made row f' hf' with ⟨f, hf₀, -⟩ | hstart
      · rw [hf] at hf₀
        cases hf₀
      · exact absurd hstart (Nat.ne_of_lt (Nat.lt_succ_self _))

/-- The end of the parameters makes at most one function, on the row of its definition. -/
theorem function?_publish : Ends publish g fun _ g' => ∀ row ∉ g.definitions.map (·.row),
    g'.symbols.function? row = g.symbols.function? row := by
  simp only [publish, ends_bind, ends_get]
  split
  · exact (ends_pure ()).2 fun _ _ => rfl
  · rename_i d rest hdefs
    split
    · exact (ends_pure ()).2 fun _ _ => rfl
    · simp only [ends_bind, ends_modify, giveMeaning, ends_get]
      split
      · exact (ends_pure ()).2 fun _ _ => rfl
      · split
        · refine ends_modify.2 fun row hrow => ?_
          rw [hdefs, List.map_cons, List.mem_cons, not_or] at hrow
          have hmeaning : ∀ (t : SymbolTable) m, (t.setMeaning d.row m).function? row =
              t.function? row := fun t m => by
            rw [SymbolTable.function?, SymbolTable.meaning?_setMeaning, if_neg (Ne.symm hrow.1)]
            rfl
          exact hmeaning _ _
        · exact ends_defect

/-- **Functions keep their parameters,** but for those whose definitions are open. -/
theorem arities_perform (hg : g.symbols.Orderly) (hexit : a ≠ .exitFunction) (x : String)
    (line : Nat) : Ends (perform a x line) g fun _ g' => ∀ row ∉ g.definitions.map (·.row),
      (g'.symbols.function? row).map (·.arity) = (g.symbols.function? row).map (·.arity) := by
  by_cases hdone : a = .paramsDone
  · subst hdone
    exact function?_publish.mono fun _ _ h row hrow => congrArg _ (h row hrow)
  · intro u g' hp row _
    exact arity_of_turns (fun next => turning_perform hdone hexit g hg next u g' hp) row

/-- **A definition begins** on a row of no function. -/
theorem ends_startFunction_row : Ends (startFunction name) g fun _ g' => ∃ row,
    g'.definitions.map (·.row) = row :: g.definitions.map (·.row) ∧
      g.symbols.function? row = none := by
  simp only [startFunction, ends_bind, ends_onMemory, ends_modifyGet, ends_get, ends_modify]
  intro _ _ _ _ _ _ _ _ _
  refine ⟨_, rfl, ?_⟩
  obtain ⟨m, hm, hunused⟩ := SymbolTable.meaning?_rowFor g.symbols name .identifier (· = .unused)
  obtain rfl : m = .unused := by simpa using hunused
  have hsame : ∀ i, (g.symbols.rowFor name .identifier (· = .unused)).2.function? i =
      g.symbols.function? i := fun _ => SymbolTable.function?_rowFor _
  rw [← hsame, SymbolTable.function?]
  exact (congrArg (·.bind Meaning.function?) hm).trans rfl

/-- **A definition ends,** and is remembered. -/
theorem ends_endFunction_row {d : Definition} {rest : List Definition}
    (h : Calm keywords false g) (hd : g.definitions = d :: rest) :
    Ends endFunction g fun _ g' => g'.symbols = g.symbols.leaveScope ∧
      g'.definitions.map (·.row) = rest.map (·.row) ∧ g'.lastDefined = some d.row := by
  have hheader : d.header = none := (h.standing d (hd ▸ List.mem_cons_self)).1
  have hrows : Titular "" fun g' => g'.definitions.map (·.row) = rest.map (·.row) :=
    fun _ _ hg h => h.rows.trans hg
  have haloof := (Aloof.of_symbols (P := (· = g.symbols))).and hrows.aloof
  -- the definition is gone before its code is completed
  have hbegin : ({ g with definitions := rest } : Generator).symbols = g.symbols ∧
      rest.map (·.row) = rest.map (·.row) := ⟨rfl, rfl⟩
  simp only [endFunction, publish, ends_bind, ends_get, hd, hheader, ends_pure, ends_modify]
  split
  · simp only [ends_bind, ends_get, ends_modify]
    refine ends_functionOn.mono ?_
    rintro info _ ⟨rfl, -⟩
    refine (haloof.emitReturn _ hbegin).mono fun _ g₁ h₁ => ?_
    exact (haloof.settle g₁ h₁).mono fun _ g₂ h₂ =>
      ⟨congrArg SymbolTable.leaveScope h₂.1, h₂.2, trivial⟩
  · simp only [ends_bind, ends_get, ends_modify]
    exact (haloof.settle _ hbegin).mono fun _ g₂ h₂ =>
      ⟨congrArg SymbolTable.leaveScope h₂.1, h₂.2, trivial⟩

end Functions

section Redefinitions

/-- Whether a fault is that of a function that is defined again. -/
def isRedefinition : SemanticFault → Bool
  | .redefined _ => true
  | _ => false

/-- How many functions have been reported to be defined again. -/
def Generator.redefinitions (g : Generator) : Nat :=
  g.errors.toList.countP fun e => isRedefinition e.fault

variable {g : Generator} {x : String} {line row : Nat} {a : Action}

theorem redefinitions_perform (ha : a ≠ .checkOverload) (x : String) (line : Nat) :
    Ends (perform a x line) g fun _ g' => g'.redefinitions = g.redefinitions := by
  refine ((reports_perform a x line).ends g).mono ?_
  rintro _ g' ⟨new, heq, hnew⟩
  have hnone : new.countP (fun e => isRedefinition e.fault) = 0 := by
    refine List.countP_eq_zero.2 fun e he hr => ?_
    have hblames := (hnew e he).2
    cases hfault : e.fault with
    | redefined f =>
      rw [hfault] at hblames
      cases a with
      | checkOverload => exact ha rfl
      | dispatch => rcases hblames with h | ⟨_, h⟩ | ⟨_, h⟩ <;> cases h
      | _ => cases hblames
    | _ =>
      rw [hfault] at hr
      cases hr
  rw [Generator.redefinitions, heq, List.countP_append, hnone]
  rfl

/-- **Functions are retired,** each with an error. -/
theorem ends_retireAll {name : String} {l : List Nat} : ∀ {g : Generator},
    Ends (l.forM fun other => do
      report line (.redefined name)
      modify (·.retireFunction other)) g fun _ g' =>
        g'.symbols = l.foldl SymbolTable.retire g.symbols ∧ g'.definitions = g.definitions ∧
          g'.redefinitions = g.redefinitions + l.length := by
  induction l with
  | nil => exact fun {g} => (ends_pure ()).2 ⟨rfl, rfl, rfl⟩
  | cons other l ih =>
    intro g
    change Ends ((report line (.redefined name) >>= fun _ => modify (·.retireFunction other)) >>=
      fun _ => l.forM _) g _
    rw [ends_bind, ends_bind, ends_report, ends_modify]
    refine ih.mono ?_
    rintro _ g' ⟨hs, hd, hr⟩
    refine ⟨hs, hd, hr.trans ?_⟩
    have hone : ((g.report line (.redefined name)).retireFunction other).redefinitions =
        g.redefinitions + 1 := by
      rw [Generator.redefinitions, Generator.retireFunction, Generator.report, Array.toList_push,
        List.countP_append]
      rfl
    rw [hone, List.length_cons]
    omega

theorem ends_retireRivals_foldl (h : g.lastDefined = some row) :
    Ends (retireRivals line) g fun _ g' =>
      g'.symbols = (g.rivals row).foldl SymbolTable.retire g.symbols ∧
        g'.definitions = g.definitions ∧
          g'.redefinitions = g.redefinitions + (g.rivals row).length := by
  simp only [retireRivals, ends_bind, ends_get, h, ends_modify]
  exact ends_retireAll

/-- **No function is retired** where there are no errors. -/
theorem ends_retireRivals_clean : Ends (retireRivals line) g fun _ g' =>
    g'.errors = #[] → ∃ last, g' = { g with lastDefined := last } := by
  simp only [retireRivals, ends_bind, ends_get]
  split
  · exact (ends_pure _).2 fun _ => ⟨_, rfl⟩
  · rename_i row hrow
    simp only [ends_bind, ends_modify]
    cases hr : g.rivals row with
    | nil => exact (ends_pure _).2 fun _ => ⟨none, rfl⟩
    | cons other rest =>
      -- the first of them is reported, and the report stays
      have hone : ∀ other g₁, Ends (do
          report line (.redefined ((g.symbols.name? row).getD ""))
          modify (·.retireFunction other)) g₁ fun _ g' => 0 < g'.errors.size := fun other g₁ => by
        simp only [ends_bind, ends_report, ends_modify]
        simp [Generator.report, Generator.retireFunction]
      have hall : Ends ((other :: rest).forM fun other => do
          report line (.redefined ((g.symbols.name? row).getD ""))
          modify (·.retireFunction other)) { g with lastDefined := none } fun _ g' =>
            0 < g'.errors.size :=
        ends_bind.2 ((hone other _).mono fun _ g₁ h₁ => ends_forM h₁ fun x _ g₂ _ => hone x g₂)
      refine hall.mono fun _ g' hpos hnone => ?_
      rw [hnone] at hpos
      cases hpos

end Redefinitions

section Rivals

variable {g : Generator} {row other s : Nat}

theorem nodup_rivals : (g.rivals row).Nodup := by
  unfold Generator.rivals
  split
  · exact ((g.symbols.nodup_ownRows _).filter _).filter _
  · exact List.nodup_nil

/-- **The rivals of a function** are the others with its signature, as far as they are not
retired. -/
theorem mem_rivals (h : g.symbols.Housed) (hs : g.symbols.scope? row = some s)
    (ho : g.symbols.Opened s) (hf : (g.symbols.function? row).isSome)
    (hlive : ¬g.symbols.Retired row) : other ∈ g.rivals row ↔ other ≠ row ∧
      ¬g.symbols.Retired other ∧ g.symbols.signature? other = g.symbols.signature? row := by
  obtain ⟨info, hinfo⟩ := Option.isSome_iff_exists.1 hf
  obtain ⟨r, hr, rfl⟩ := Option.map_eq_some_iff.1 hs
  have hname : g.symbols.name? row = some r.name := by rw [SymbolTable.name?, hr]; rfl
  have hunmarked : Unmarked r.name := by
    by_contra hm
    exact hlive (SymbolTable.retired_iff_name?.2 ⟨_, hname, hm⟩)
  have hsig : g.symbols.signature? row = some ⟨r.scope, r.name, info.arity⟩ :=
    SymbolTable.signature?_eq_some_iff.2
      ⟨info, r.name, hinfo, hs, hname, title_of_unmarked hunmarked, rfl⟩
  rw [Generator.rivals, hr, hinfo, hsig]
  simp only [SymbolTable.functionsIn, List.mem_filter, SymbolTable.carries, Bool.and_eq_true,
    Bool.not_false, Bool.true_or, and_true, beq_iff_eq, decide_eq_true_eq]
  constructor
  · rintro ⟨⟨hmem, hother, -⟩, hne, harity⟩
    obtain ⟨info', hinfo', harity⟩ := Option.map_eq_some_iff.1 harity
    refine ⟨hne, fun hretired => ?_, SymbolTable.signature?_eq_some_iff.2 ⟨info', r.name, hinfo',
      SymbolTable.scope?_of_mem_ownRows hmem, hother, title_of_unmarked hunmarked, harity⟩⟩
    obtain ⟨name, hname', hm⟩ := SymbolTable.retired_iff_name?.1 hretired
    cases hother.symm.trans hname'
    exact hm hunmarked
  · rintro ⟨hne, hlive', hsig'⟩
    obtain ⟨info', name, hinfo', hscope, hname', htitle, harity⟩ :=
      SymbolTable.signature?_eq_some_iff.1 hsig'
    have hunmarked' : Unmarked name := by
      by_contra hm
      exact hlive' (SymbolTable.retired_iff_name?.2 ⟨_, hname', hm⟩)
    obtain rfl : name = r.name := (title_of_unmarked hunmarked').symm.trans htitle
    refine ⟨⟨h.mem_ownRows ho hscope, hname', by rw [hinfo']; rfl⟩, hne, ?_⟩
    rw [hinfo', Option.map_some]
    exact congrArg some harity

end Rivals

section Frames

variable {t : Scopes} {constructs : List Construct} {places : List (Nat × Nat)}
  {starts : List Nat} {cur row s : Nat} {g : Generator}

/-- **The scope of an open definition** lies around the current one, or is that. -/
theorem Framing.place (h : Framing t constructs places starts cur) (hn : t.Nested)
    (hmem : (row, s) ∈ places) : s ≤ cur ∧ ∃ outer, t.At s (.body row) (some outer) := by
  induction h with
  | outermost => cases hmem
  | function ha _ ih =>
    rcases List.mem_cons.1 hmem with heq | hmem
    · obtain ⟨rfl, rfl⟩ := Prod.mk.inj heq
      exact ⟨Nat.le_refl _, _, ha⟩
    · obtain ⟨hle, hat⟩ := ih hmem
      exact ⟨Nat.le_trans hle (Nat.le_of_lt (ha.lt hn)), hat⟩
  | loop ha _ ih =>
    obtain ⟨hle, hat⟩ := ih hmem
    exact ⟨Nat.le_trans hle (Nat.le_of_lt (ha.lt hn)), hat⟩

/-- The rows of open definitions lie further out than the current scope. -/
theorem Generator.Framed.scope?_ne (h : g.Framed constructs) (ht : g.symbols.Housed)
    (hrow : row ∈ g.definitions.map (·.row)) :
    g.symbols.scope? row ≠ some g.currentScope := by
  obtain ⟨d, hd, rfl⟩ := List.mem_map.1 hrow
  obtain ⟨hle, outer, hat⟩ := h.framing.place ht.nested (List.mem_map_of_mem hd : d.place ∈ _)
  rw [ht.bodies _ _ _ hat]
  rintro heq
  cases heq
  exact absurd hle (Nat.not_le.2 (hat.lt ht.nested))

/-- **The current scope is open.** -/
theorem Generator.Framed.opened (h : g.Framed constructs) (hn : g.symbols.scopes.Nested)
    (hb : ∀ (s : Nat) (scope : Scope), g.symbols.scopes.all[s]? = some scope →
      scope.firstRow ≤ g.symbols.rows.size) : g.symbols.Opened g.currentScope := by
  have hmem : g.currentScope ∈ constructs.map Construct.scope ++ [Scopes.outermost] := by
    rw [← h.framing.enclosing h.rooted hn]
    exact Scopes.mem_enclosing_self hn.current
  obtain ⟨scope, hs, hend⟩ := (h.unended _).2 hmem
  exact ⟨scope, hs, hend, hb _ scope hs⟩

/-- The innermost definition is on a row of the scope around its own, which is the current one. -/
theorem Generator.Framed.head (h : g.Framed (.function s :: constructs)) (ht : g.symbols.Housed) :
    ∃ d rest, g.definitions = d :: rest ∧
      g.symbols.scope? d.row = some g.leaveScope.currentScope := by
  have hframing := h.framing
  generalize hcur : g.symbols.scopes.current = cur at hframing
  generalize hplaces : g.definitions.map Definition.place = places at hframing
  generalize hstarts : g.symbols.openLoops.starts = starts at hframing
  cases hframing with
  | function hat _ =>
    subst hcur
    obtain ⟨d, rest, hdefs, heq, -⟩ := List.map_eq_cons_iff.1 hplaces
    obtain ⟨rfl, -⟩ := Prod.mk.inj heq
    refine ⟨d, rest, hdefs, (ht.bodies _ _ _ hat).trans ?_⟩
    exact congrArg some (Scopes.current_leave hat _).symm

end Frames

/-- **What has been defined and what is settled:** all of it, or all but the function whose
definition has just ended, in the current scope. -/
inductive Settles (g : Generator) : List Layer → List Nat → List Nat → Prop
  | steady {layers : List Layer} {defined : List Nat} (h : Layer.ended ∉ layers) :
    Settles g layers defined defined
  | ended {layers : List Layer} {row : Nat} {settled : List Nat} (h : Layer.ended ∉ layers)
      (hlast : g.lastDefined = some row)
      (hs : g.symbols.scope? row = some g.currentScope) :
    Settles g (.ended :: layers) (row :: settled) settled

/-- **A state in which these functions have been defined,** the latest first. Each of those that are
retired has been reported. -/
structure Generator.Overloads (layers : List Layer) (defined : List Nat) (g : Generator) :
    Prop where
  table : ∃ settled, g.symbols.Overloads (g.definitions.map (·.row)) defined settled ∧
    Settles g layers defined settled
  reported : g.redefinitions = g.symbols.retiredCount

/-- The function that an action defines, if it ends a definition. -/
def Generator.newlyDefined (g : Generator) (a : Action) : List Nat :=
  match a with
  | .exitFunction => (g.definitions.head?.map (·.row)).toList
  | _ => []

section Perform

variable {g g' : Generator} {layers layers' : List Layer} {defined : List Nat} {x : String}
  {keywords : List String} {constructs : List Construct} {line s : Nat} {a : Action}

/-- **Functions stay as they are,** but for those whose definitions are open. -/
theorem Generator.Overloads.lengthens (h : g.Overloads layers defined)
    (hl : g.symbols.Lengthens x g'.symbols) (hx : Unmarked x)
    (hrows : g'.definitions.map (·.row) = g.definitions.map (·.row))
    (hf : ∀ row ∉ g.definitions.map (·.row),
      (g'.symbols.function? row).map (·.arity) = (g.symbols.function? row).map (·.arity))
    (hr : g'.redefinitions = g.redefinitions)
    (hsettles : ∀ settled, Settles g layers defined settled → Settles g' layers' defined settled) :
    g'.Overloads layers' defined := by
  obtain ⟨⟨settled, htable, hs⟩, hreported⟩ := h
  refine ⟨⟨settled, ?_, hsettles settled hs⟩, ?_⟩
  · rw [hrows]
    exact htable.lengthens hl hx hf
  · rw [hr, hl.retiredCount hx, hreported]

theorem Generator.Overloads.record (h : g.Overloads layers defined) {token : Lexical.Token}
    (hx : Unmarked token.lexeme) :
    Generator.Overloads layers defined { g with symbols := g.symbols.record token } := by
  refine h.lengthens (SymbolTable.lengthens_record token) hx rfl (fun row _ => ?_) rfl ?_
  · rcases SymbolTable.record_cases g.symbols token with heq | ⟨heq, -⟩
    · exact congrArg (fun t : SymbolTable => (t.function? row).map (·.arity)) heq
    · refine (congrArg (fun t : SymbolTable => (t.function? row).map (·.arity)) heq).trans ?_
      rw [SymbolTable.function?_appendRow]
  · rintro settled (hsteady | ⟨hsteady, hlast, hs⟩)
    · exact .steady hsteady
    · refine .ended hsteady hlast ?_
      have hcurrent : (g.symbols.record token).currentScope = g.symbols.currentScope :=
        congrArg Scopes.current (SymbolTable.scopes_record _ _)
      exact ((SymbolTable.lengthens_record token).places _ _ hs).trans
        (congrArg some hcurrent.symm)

/-- **A function that has been defined** is the one that counts from now on. -/
theorem Generator.Overloads.ends_retireRivals (h : g.Overloads (.ended :: layers) defined)
    (hframed : g.Framed constructs) :
    Ends (retireRivals line) g fun _ g' => g'.Overloads layers defined := by
  obtain ⟨⟨settled, htable, hsettles⟩, hreported⟩ := h
  rcases hsettles with hsteady | ⟨hsteady, hlast, hs⟩
  · exact absurd List.mem_cons_self hsteady
  rename_i row
  have hmem : ∀ other, other ∈ g.rivals row ↔ other ≠ row ∧ ¬g.symbols.Retired other ∧
      g.symbols.signature? other = g.symbols.signature? row := fun other =>
    mem_rivals htable.housed hs (hframed.opened htable.housed.nested htable.housed.begins)
      (htable.made row List.mem_cons_self) htable.not_retired
  refine (ends_retireRivals_foldl hlast).mono ?_
  rintro _ g' ⟨hsymbols, hdefinitions, hredefinitions⟩
  refine ⟨⟨row :: settled, ?_, .steady hsteady⟩, ?_⟩
  · rw [hsymbols, hdefinitions]
    exact htable.settle hs (fun i hi => hframed.scope?_ne htable.housed hi) hmem
  · rw [hsymbols, hredefinitions, hreported, SymbolTable.retiredCount_foldl_retire nodup_rivals]
    intro i hi
    obtain ⟨info, hinfo⟩ := Option.isSome_iff_exists.1 (Sound.function?_of_mem_rivals hi)
    exact ⟨SymbolTable.lt_of_function? hinfo, ((hmem i).1 hi).2.1⟩

/-- **A definition begins.** -/
theorem Generator.Overloads.ends_startFunction (h : g.Overloads layers defined)
    (hcalm : Calm keywords false g) (hx : Unmarked x) (hsteady : Layer.ended ∉ layers)
    (hsteady' : Layer.ended ∉ layers') :
    Ends (startFunction x) g fun _ g' => g'.Overloads layers' defined := by
  obtain ⟨⟨settled, htable, hsettles⟩, hreported⟩ := h
  rcases hsettles with - | ⟨-, -, -⟩
  · refine ((ends_startFunction_row.and lengthens_startFunction).and
      ((arities_perform (a := .enterFunction) htable.housed.toOrderly nofun x 0).and
        (redefinitions_perform (a := .enterFunction) nofun x 0))).mono ?_
    rintro _ g' ⟨⟨⟨row, hrows, hnone⟩, hl⟩, hf, hr⟩
    have hrow : row ∉ g.definitions.map (·.row) ++ defined := by
      intro hmem
      have hsome : (g.symbols.function? row).isSome := by
        rcases List.mem_append.1 hmem with hmem | hmem
        · obtain ⟨d, hd, rfl⟩ := List.mem_map.1 hmem
          exact (hcalm.standing d hd).2
        · exact htable.made row hmem
      rw [hnone] at hsome
      cases hsome
    refine ⟨⟨_, ?_, .steady hsteady'⟩, ?_⟩
    · rw [hrows]
      exact (htable.lengthens hl hx hf).begin hrow
    · rw [hr, hl.retiredCount hx, hreported]
  · exact absurd List.mem_cons_self hsteady

/-- **A definition ends,** and its function has been defined. -/
theorem Generator.Overloads.ends_endFunction (h : g.Overloads layers defined)
    (hframed : g.Framed (.function s :: constructs)) (hcalm : Calm keywords false g)
    (hsteady : Layer.ended ∉ layers) (hsteady' : Layer.ended ∉ layers') :
    Ends endFunction g fun _ g' =>
      g'.Overloads (.ended :: layers') (g.newlyDefined .exitFunction ++ defined) := by
  obtain ⟨⟨settled, htable, hsettles⟩, hreported⟩ := h
  rcases hsettles with - | ⟨-, -, -⟩
  · obtain ⟨d, rest, hdefs, hscope⟩ := hframed.head htable.housed
    have hfunction : (g.symbols.function? d.row).isSome :=
      (hcalm.standing d (hdefs ▸ List.mem_cons_self)).2
    refine ((ends_endFunction_row hcalm hdefs).and
      (redefinitions_perform (a := .exitFunction) nofun "" 0)).mono ?_
    rintro _ g' ⟨⟨hsymbols, hrows, hlast⟩, hr⟩
    rw [hdefs] at htable
    have hleft := htable.lengthens (SymbolTable.lengthens_leaveScope (x := "")) rfl
      fun _ _ => rfl
    refine ⟨⟨defined, ?_, ?_⟩, ?_⟩
    · rw [hsymbols, hrows, Generator.newlyDefined, hdefs]
      exact hleft.close hfunction
    · rw [Generator.newlyDefined, hdefs]
      refine .ended hsteady' hlast ?_
      rw [Generator.currentScope, hsymbols]
      exact hscope
    · rw [hr, hreported, hsymbols]
      exact ((SymbolTable.lengthens_leaveScope (x := "")).retiredCount rfl).symm
  · exact absurd List.mem_cons_self hsteady

/-- **Every action keeps account of the functions** that have been defined. -/
theorem overloads_perform {header : Bool} (h : g.Overloads layers defined)
    (hframed : g.Framed constructs) (hcalm : Calm keywords header g)
    (hheader : header = true → a = .param ∨ a = .paramsDone) (hx : Unmarked x)
    (hturn : a.turn layers = some layers')
    (hexit : a = .exitFunction → ∃ s rest, constructs = .function s :: rest) :
    Ends (perform a x line) g fun _ g' =>
      g'.Overloads layers' (g.newlyDefined a ++ defined) := by
  have hfalse : ¬(a = .param ∨ a = .paramsDone) → header = false := fun hne =>
    Bool.eq_false_iff.2 fun ht => hne (hheader ht)
  by_cases hcheck : a = .checkOverload
  · subst hcheck
    obtain ⟨hhead, heq⟩ := Option.ite_none_right_eq_some.1 hturn
    obtain rfl : layers.tail = layers' := Option.some.inj heq
    rw [Layer.eq_cons_of_head? hhead] at h
    exact h.ends_retireRivals hframed
  -- no definition has just ended
  have hsteady : Layer.ended ∉ layers := by
    obtain ⟨⟨settled, -, hsettles⟩, -⟩ := h
    rcases hsettles with hsteady | ⟨-, -, -⟩
    · exact hsteady
    · exact absurd (Layer.turn_ended hturn).1 hcheck
  have hsteady' := (Layer.ended_not_mem_turn hsteady hturn).2
  by_cases ha : a = .exitFunction
  · subst ha
    rw [if_pos rfl] at hsteady'
    obtain ⟨below, rfl, hbelow⟩ := hsteady'
    obtain ⟨s, rest, rfl⟩ := hexit rfl
    exact h.ends_endFunction hframed (hfalse (by simp) ▸ hcalm) hsteady hbelow
  rw [if_neg ha] at hsteady'
  have hnew : g.newlyDefined a = [] := by
    unfold Generator.newlyDefined
    split
    · exact absurd rfl ha
    · rfl
  rw [hnew, List.nil_append]
  by_cases henter : a = .enterFunction
  · subst henter
    exact h.ends_startFunction (hfalse (by simp) ▸ hcalm) hx hsteady hsteady'
  have hkeeps : keepsTitles a = true := by
    unfold keepsTitles
    split <;> first | rfl | contradiction
  obtain ⟨⟨_, htable, -⟩, -⟩ := id h
  refine ((retains_perform hkeeps).and ((arities_perform htable.housed.toOrderly ha x line).and
    (redefinitions_perform hcheck x line))).mono ?_
  rintro _ g' ⟨hretains, hf, hr⟩
  refine h.lengthens hretains.table hx hretains.rows hf hr ?_
  rintro settled (- | ⟨-, -, -⟩)
  · exact .steady hsteady'
  · exact absurd List.mem_cons_self hsteady

end Perform

end OnePass.Emission
