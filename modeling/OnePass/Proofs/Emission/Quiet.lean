import OnePass.Proofs.Emission.Runs

/-!
# Actions that only compute

The actions of values and of simple statements append code that runs on to its end. They
bind names, but they open no definition, no loop and no scope, and leave the functions
alone.

* `Setting.reserving`: a setting for these reserved words.
* `Straight`: code that runs on to its end, with powers and calls in it.
* `Quiet`: a step that only appends such code. `Hushes`, `hushes_bind` and the others.
* `Computes`: the actions that only compute. `hushes_perform`: they are quiet.
-/

namespace OnePass.Target.Instruction

/-- An instruction behind which the next one is executed. -/
def Plain (i : Instruction) : Prop := i.opcode ≠ .jump ∧ i.opcode ≠ .jumpFalse

theorem plain_assign (a d : Operand) : (assign a d).Plain := ⟨nofun, nofun⟩

theorem plain_print (a : Operand) : (print a).Plain := ⟨nofun, nofun⟩

theorem plain_binary {op : Opcode}
    (hop : op = .add ∨ op = .sub ∨ op = .mult ∨ op = .eq ∨ op = .lt) (a b d : Operand) :
    (binary op a b d).Plain := by
  rcases hop with rfl | rfl | rfl | rfl | rfl <;> exact ⟨nofun, nofun⟩

end OnePass.Target.Instruction

namespace OnePass.Target.Memory

variable {m m' : Memory} {a : Nat}

theorem program_takeNextCell (h : m.takeNextCell = .ok (a, m')) : m'.program = m.program := by
  rw [takeNextCell_eq] at h
  split at h
  · cases h
  · cases h
    rfl

theorem program_dropTemp (m : Memory) (a : Nat) : (m.dropTemp a).program = m.program := by
  unfold dropTemp
  split <;> rfl

theorem program_takeCell (h : m.takeCell = .ok (a, m')) : m'.program = m.program := by
  rw [takeCell_eq] at h
  split at h
  · cases h
    rfl
  · exact program_takeNextCell h

end OnePass.Target.Memory

namespace OnePass.Names.SymbolTable

/-- **A function that can be called:** its row belongs to the current scope or one around it. -/
def Visible (t : SymbolTable) (info : FunctionInfo) : Prop :=
  ∃ row s, t.function? row = some info ∧ t.scope? row = some s ∧
    s ∈ t.scopes.enclosing t.currentScope

/-- **A table with more rows,** all of them in the current scope. -/
structure Longer (t t' : SymbolTable) : Prop where
  places : ∀ row s, t.scope? row = some s → t'.scope? row = some s
  fresh : ∀ row s, t'.scope? row = some s → t.scope? row = some s ∨ s = t.currentScope

variable {t t' : SymbolTable} {row i : Nat} {name : String} {kind : Lexical.TokenKind} {m : Meaning}

theorem Longer.refl (t : SymbolTable) : t.Longer t := ⟨fun _ _ h => h, fun _ _ => .inl⟩

theorem Longer.trans {t'' : SymbolTable} (h : t.Longer t') (h' : t'.Longer t'')
    (hcurrent : t'.currentScope = t.currentScope) : t.Longer t'' where
  places row s hs := h'.places row s (h.places row s hs)
  fresh row s hs := by
    rcases h'.fresh row s hs with hs | rfl
    · exact h.fresh row s hs
    · exact .inr hcurrent

theorem Longer.of_eq (h : ∀ i, t'.scope? i = t.scope? i) : t.Longer t' :=
  ⟨fun row _ hs => (h row).trans hs, fun row _ hs => .inl ((h row).symm.trans hs)⟩

theorem longer_appendRow (t : SymbolTable) (name : String) (kind : Lexical.TokenKind) :
    t.Longer (t.appendRow name kind).2 where
  places row s hs := by
    obtain ⟨r, hr, -⟩ := Option.map_eq_some_iff.1 hs
    have hlt := (Array.getElem?_eq_some_iff.1 hr).1
    rwa [scope?_appendRow, if_neg (Nat.ne_of_lt hlt)]
  fresh row s hs := by
    rw [scope?_appendRow] at hs
    split at hs
    · exact .inr (Option.some.inj hs).symm
    · exact .inl hs

theorem longer_rowFor (t : SymbolTable) (name : String) (kind : Lexical.TokenKind)
    (reuse : Meaning → Bool) : t.Longer (t.rowFor name kind reuse).2 := by
  rcases (rowFor_spec t name kind reuse).2 with ⟨heq, -⟩ | heq
  · rw [heq]
    exact .refl t
  · rw [heq]
    exact longer_appendRow t name kind

theorem longer_record (t : SymbolTable) (token : Lexical.Token) : t.Longer (t.record token) := by
  rcases record_cases t token with heq | ⟨heq, -⟩
  · rw [heq]
    exact .refl t
  · rw [heq]
    exact longer_appendRow t _ _

/-- A function stands on a row of some scope. -/
theorem exists_scope? {info : FunctionInfo} (h : t.function? row = some info) :
    ∃ s, t.scope? row = some s := by
  obtain ⟨m, hm, -⟩ := Option.bind_eq_some_iff.1 h
  obtain ⟨r, hr, -⟩ := Option.map_eq_some_iff.1 hm
  exact ⟨r.scope, by rw [scope?, hr]; rfl⟩

/-- What can be called in a longer table could be called before, if the functions are the same. -/
theorem Longer.visible (h : t.Longer t') (hf : ∀ row, t'.function? row = t.function? row)
    (hscopes : t'.scopes = t.scopes) {info : FunctionInfo} (hv : t'.Visible info) :
    t.Visible info := by
  obtain ⟨row, s, hrow, hs, hmem⟩ := hv
  rw [hf] at hrow
  obtain ⟨s₀, hs₀⟩ := exists_scope? hrow
  have heq : s₀ = s := Option.some.inj ((h.places row s₀ hs₀).symm.trans hs)
  have hcurrent : t'.currentScope = t.currentScope := congrArg Scopes.current hscopes
  rw [hscopes, hcurrent] at hmem
  exact ⟨row, s, hrow, heq ▸ hs₀, hmem⟩

theorem function?_appendRow : (t.appendRow name kind).2.function? i = t.function? i := by
  rw [function?, meaning?_appendRow, function?]
  split
  · rename_i hi
    have hnone : t.meaning? i = none := by simp [meaning?, hi]
    rw [hnone]
    rfl
  · rfl

/-- A row that stands for no function may be given a cell. -/
theorem function?_setVariable {cell : Option Nat} (h : t.function? row = none) :
    (t.setMeaning row (.variable cell)).function? i = t.function? i := by
  rw [function?, meaning?_setMeaning, function?]
  split
  · rename_i hi
    subst hi
    rw [function?] at h
    cases hm : t.meaning? row with
    | none => rfl
    | some m =>
      rw [hm] at h
      exact h.symm
  · rfl

theorem function?_retire : (t.retire row).function? i = t.function? i := by
  rw [function?, meaning?_retire, function?]

/-- The rows of a scope are those that say so. -/
theorem scope?_of_mem_ownRows {s : Nat} (h : row ∈ t.ownRows s) : t.scope? row = some s := by
  unfold ownRows at h
  split at h
  · cases h
  · exact eq_of_beq (List.mem_filter.1 h).2

/-- A row for a name is one of the current scope. -/
theorem scope?_rowFor (t : SymbolTable) (name : String) (kind : Lexical.TokenKind)
    (reuse : Meaning → Bool) :
    (t.rowFor name kind reuse).2.scope? (t.rowFor name kind reuse).1 = some t.currentScope := by
  have happend : (t.appendRow name kind).2.scope? (t.appendRow name kind).1 =
      some t.currentScope := by
    rw [scope?_appendRow]
    exact if_pos rfl
  unfold rowFor
  split
  · rename_i row hrow
    split
    · exact scope?_of_mem_ownRows (List.mem_of_find?_eq_some hrow)
    · exact happend
  · exact happend

/-- The function that a call selects can be seen from there. -/
theorem visible_of_callee? {count : Nat} {info : FunctionInfo}
    (h : t.callee? t.currentScope name count = some (row, info)) : t.Visible info := by
  have hfunction := (Emission.function?_of_callee? h).1
  obtain ⟨row', hmem, h⟩ := List.exists_of_findSome?_eq_some h
  obtain ⟨info', -, heq⟩ := Option.map_eq_some_iff.1 h
  obtain rfl : row' = row := congrArg Prod.fst heq
  obtain ⟨s, hs, hrow⟩ := List.mem_flatMap.1 hmem
  exact ⟨row', s, hfunction, scope?_of_mem_ownRows (List.mem_filter.1 hrow).1, hs⟩

/-- A row that is found or appended for a variable stands for no function. -/
theorem function?_rowFor_isVariable (t : SymbolTable) (name : String) (kind : Lexical.TokenKind) :
    (t.rowFor name kind Meaning.isVariable).2.function? (t.rowFor name kind Meaning.isVariable).1 =
      none := by
  rcases (rowFor_spec t name kind Meaning.isVariable).2 with ⟨heq, hany⟩ | heq
  · rw [heq, function?]
    cases hm : t.meaning? (t.rowFor name kind Meaning.isVariable).1 with
    | none => rfl
    | some m =>
      rw [hm] at hany
      rcases m with cell | info | record
      · rfl
      · cases hany
      · cases hany
  · rw [heq, function?_appendRow, appendRow]
    simp [function?, meaning?]

theorem function?_rowFor (reuse : Meaning → Bool) :
    (t.rowFor name kind reuse).2.function? i = t.function? i := by
  rcases (rowFor_spec t name kind reuse).2 with ⟨heq, -⟩ | heq
  · rw [heq]
  · rw [heq, function?_appendRow]

/-- Reading a token makes no function. -/
theorem function?_record (t : SymbolTable) (token : Lexical.Token) :
    (t.record token).function? i = t.function? i := by
  rcases record_cases t token with heq | ⟨heq, -⟩
  · rw [heq]
  · rw [heq, function?_appendRow]

theorem scopes_rowFor (t : SymbolTable) (name : String) (kind : Lexical.TokenKind)
    (reuse : Meaning → Bool) : (t.rowFor name kind reuse).2.scopes = t.scopes := by
  rcases (rowFor_spec t name kind reuse).2 with ⟨heq, -⟩ | heq
  · rw [heq]
  · rw [heq, scopes_appendRow]

theorem scopes_record (t : SymbolTable) (token : Lexical.Token) :
    (t.record token).scopes = t.scopes := by
  rcases record_cases t token with heq | ⟨heq, -⟩
  · rw [heq]
  · rw [heq, scopes_appendRow]

end OnePass.Names.SymbolTable

namespace OnePass.Emission

open Grammar (Action)
open Names Target
open Lexical (Token)

/-- **A setting for these reserved words.** Names have to do with no other part of it. -/
def Setting.reserving (keywords : List String) : Setting where
  config := { Config.standard with keywords := keywords }
  unit_pos := show 0 < 4 by decide
  zones := show 500 ≤ 900 by decide
  small := show 900 ≤ 2 ^ 63 by decide
  temp _ := False
  temp_lt _ h := h.elim

/-- **Code from a slot on that runs on to its end.** Only powers jump, within themselves, and calls,
which come back. -/
inductive Straight (stands : FunctionInfo → Prop) : Nat → List Instruction → Prop
  | nil (s : Nat) : Straight stands s []
  | plain {s : Nat} {i : Instruction} {code : List Instruction} (hi : i.Plain)
      (h : Straight stands (s + 1) code) : Straight stands s (i :: code)
  | power {s : Nat} (base exponent : Operand) (result counter running : Nat)
      {code : List Instruction} (h : Straight stands (s + 7) code) :
      Straight stands s (powerCode base exponent result counter running s ++ code)
  | call {s : Nat} {info : FunctionInfo} {code : List Instruction} (hinfo : stands info)
      (h : Straight stands (s + 2) code) :
      Straight stands s
        (.assign (.immediate (s + 2)) (.direct info.returnCell) :: .jump info.start :: code)

section Straight

variable {stands stands' : FunctionInfo → Prop} {s : Nat} {a b : List Instruction}

theorem Straight.append (ha : Straight stands s a) (hb : Straight stands (s + a.length) b) :
    Straight stands s (a ++ b) := by
  induction ha with
  | nil => exact hb
  | plain hi _ ih =>
    refine .plain hi (ih ?_)
    rw [List.length_cons] at hb
    rwa [Nat.add_right_comm]
  | power base exponent result counter running _ ih =>
    rw [List.append_assoc]
    refine .power base exponent result counter running (ih ?_)
    rw [List.length_append] at hb
    rw [Nat.add_assoc]
    exact hb
  | call hinfo _ ih =>
    refine .call hinfo (ih ?_)
    rw [List.length_cons, List.length_cons] at hb
    rw [Nat.add_assoc, Nat.add_comm 2]
    exact hb

theorem Straight.mono (h : Straight stands s a) (hs : ∀ info, stands info → stands' info) :
    Straight stands' s a := by
  induction h with
  | nil s => exact .nil s
  | plain hi _ ih => exact .plain hi ih
  | power base exponent result counter running _ ih => exact .power _ _ _ _ _ ih
  | call hinfo _ ih => exact .call (hs _ hinfo) ih

theorem straight_single {i : Instruction} (hi : i.Plain) : Straight stands s [i] :=
  .plain hi (.nil _)

end Straight

/-- **A step that only computes.** It appends code and binds names, and all else is as before. -/
structure Quiet (E : Setting) (g g' : Generator) : Prop where
  scopes : g'.symbols.scopes = g.symbols.scopes
  rows : g.symbols.Longer g'.symbols
  functions : ∀ row, g'.symbols.function? row = g.symbols.function? row
  steady : g.symbols.scopes.Rooted → (∃ record, E.Records g.symbols record) →
    Steady E g.symbols g'.symbols
  definitions : g'.definitions = g.definitions
  lastDefined : g'.lastDefined = g.lastDefined
  program : ∃ code : List Instruction,
    g'.memory.program = g.memory.program ++ (code.map some).toArray ∧
      Straight g.symbols.Visible g.programNext code

namespace Quiet

variable {E : Setting} {g g' g'' : Generator}

/-- A step that leaves names and definitions alone, and appends code. -/
theorem of_program {code : List Instruction} (hsymbols : g'.symbols = g.symbols)
    (hprogram : g'.memory.program = g.memory.program ++ (code.map some).toArray)
    (hstraight : Straight g.symbols.Visible g.programNext code)
    (hdefs : g'.definitions = g.definitions) (hlast : g'.lastDefined = g.lastDefined) :
    Quiet E g g' where
  scopes := by rw [hsymbols]
  rows := hsymbols ▸ .refl _
  functions row := by rw [hsymbols]
  steady _ _ := by
    rw [hsymbols]
    exact .refl E _
  definitions := hdefs
  lastDefined := hlast
  program := ⟨code, hprogram, hstraight⟩

/-- A step that leaves names, definitions and the program alone. -/
theorem of_eq (hsymbols : g'.symbols = g.symbols) (hprogram : g'.memory.program = g.memory.program)
    (hdefs : g'.definitions = g.definitions) (hlast : g'.lastDefined = g.lastDefined) :
    Quiet E g g' :=
  of_program hsymbols (by simp [hprogram]) (.nil _) hdefs hlast

theorem refl (E : Setting) (g : Generator) : Quiet E g g := of_eq rfl rfl rfl rfl

theorem trans (h : Quiet E g g') (h' : Quiet E g' g'') : Quiet E g g'' where
  scopes := h'.scopes.trans h.scopes
  rows := h.rows.trans h'.rows (congrArg Scopes.current h.scopes)
  functions row := (h'.functions row).trans (h.functions row)
  steady hroot hr := by
    have hsteady := h.steady hroot hr
    obtain ⟨record, hrecord⟩ := hr
    exact hsteady.trans (h'.steady (h.scopes ▸ hroot) ⟨record, hsteady.records record hrecord⟩)
  definitions := h'.definitions.trans h.definitions
  lastDefined := h'.lastDefined.trans h.lastDefined
  program := by
    obtain ⟨code, hcode, hstraight⟩ := h.program
    obtain ⟨code', hcode', hstraight'⟩ := h'.program
    have hnext : g'.programNext = g.programNext + code.length := by
      simp [Generator.programNext, Memory.programNext, hcode]
    rw [hnext] at hstraight'
    have hvisible := hstraight'.mono fun _ hv => h.rows.visible h.functions h.scopes hv
    refine ⟨code ++ code', ?_, hstraight.append hvisible⟩
    simp [hcode', hcode]

/-- Code that runs on to its end is appended. -/
theorem append {i : Instruction} (hi : i.Plain) : Quiet E g (g.append (some i)) := by
  have hprogram : (g.append (some i)).memory.program =
      g.memory.program ++ ([i].map some).toArray := Array.push_eq_append
  exact of_program rfl hprogram (straight_single hi) rfl rfl

end Quiet

/-- **A step of generation that only computes.** -/
def Hushes (E : Setting) {α : Type} (x : Emit α) : Prop :=
  ∀ g, Ends x g fun _ g' => Quiet E g g'

section Hushes

variable {E : Setting} {α β : Type} {line : Nat} {name : String}

theorem hushes_pure (a : α) : Hushes E (pure a) := fun g => (ends_pure a).2 (.refl E g)

theorem hushes_bind {x : Emit α} {f : α → Emit β} (hx : Hushes E x) (hf : ∀ a, Hushes E (f a)) :
    Hushes E (x >>= f) := fun g =>
  ends_bind.2 ((hx g).mono fun a g₁ h₁ => (hf a g₁).mono fun _ _ h₂ => h₁.trans h₂)

theorem hushes_get : Hushes E get := fun g => ends_get.2 (.refl E g)

theorem hushes_modify {f : Generator → Generator} (h : ∀ g, Quiet E g (f g)) :
    Hushes E (modify f) := fun g => ends_modify.2 (h g)

theorem hushes_modifyGet {f : Generator → α × Generator} (h : ∀ g, Quiet E g (f g).2) :
    Hushes E (modifyGet f) := fun g => ends_modifyGet.2 (h g)

theorem hushes_push {o : Operand} : Hushes E (push o) :=
  hushes_modify fun _ => .of_eq rfl rfl rfl rfl

theorem hushes_report {fault : SemanticFault} : Hushes E (report line fault) :=
  hushes_modify fun _ => .of_eq rfl rfl rfl rfl

theorem hushes_pop : Hushes E pop := hushes_modifyGet fun g => by
  obtain ⟨st, hst⟩ := g.pop_frame
  rw [hst]
  exact .of_eq rfl rfl rfl rfl

theorem hushes_takeValue : Hushes E (takeValue line) := hushes_modifyGet fun g => by
  obtain ⟨st, voids, errors, hst⟩ := g.takeValue_frame line
  rw [hst]
  exact .of_eq rfl rfl rfl rfl

theorem hushes_takeValues (count : Nat) : Hushes E (takeValues line count) := fun _ =>
  ends_takeValues_frame.mono fun _ _ ⟨_, _, _, h⟩ => h ▸ .of_eq rfl rfl rfl rfl

theorem hushes_emit {i : Instruction} (hi : i.Plain) : Hushes E (emit i) := fun _ =>
  ends_emit.2 fun _ => .append hi

theorem hushes_freshTemp : Hushes E freshTemp := fun _ =>
  ends_freshTemp.2 fun _ => .of_eq rfl rfl rfl rfl

theorem hushes_takeNextCell : Hushes E (onMemory (·.takeNextCell)) := fun g => by
  rw [ends_onMemory]
  intro cell m hm
  exact .of_eq rfl (Memory.program_takeNextCell hm) rfl rfl

theorem hushes_dropTemp {cell : Nat} : Hushes E (dropTemp cell) :=
  hushes_modify fun _ => .of_eq rfl (Memory.program_dropTemp _ _) rfl rfl

/-- A name that may be bound is not the loop keyword, if that is reserved. -/
def Setting.Bindable (E : Setting) (name : String) : Prop :=
  E.config.keywords.contains loopKeyword = true → name ≠ loopKeyword

/-- A row that is found or appended for such a name is not the one of the loops. -/
theorem steady_rowFor {t : SymbolTable} (hroot : t.scopes.Rooted) (hn : E.Bindable name)
    (kind : Lexical.TokenKind) (reuse : Meaning → Bool) :
    Steady E t (t.rowFor name kind reuse).2 ∧
      E.Safe (t.rowFor name kind reuse).2 (t.rowFor name kind reuse).1 := by
  obtain ⟨hname, hcase⟩ := SymbolTable.rowFor_spec t name kind reuse
  refine ⟨?_, fun hk => ?_⟩
  · rcases hcase with ⟨heq, -⟩ | heq
    · rw [heq]
      exact .refl E _
    · rw [heq]
      exact steady_appendRow hroot hn
  · rw [hname]
    exact fun heq => hn hk (Option.some.inj heq)

/-- **A name is bound to a cell,** on a row that is found or appended. -/
theorem quiet_bind (g : Generator) (hn : E.Bindable name) (cell : Option Nat) {m : Memory}
    (hm : m.program = g.memory.program) :
    Quiet E g ({ (g.rowFor name Meaning.isVariable).2 with memory := m }.setMeaning
      (g.rowFor name Meaning.isVariable).1 (.variable cell)) where
  scopes := SymbolTable.scopes_rowFor _ _ _ _
  rows := (SymbolTable.longer_rowFor g.symbols name .identifier Meaning.isVariable).trans
    (.of_eq fun _ => SymbolTable.scope?_setMeaning)
    (congrArg Scopes.current (SymbolTable.scopes_rowFor _ _ _ _))
  functions row := by
    refine (SymbolTable.function?_setVariable ?_).trans (SymbolTable.function?_rowFor _)
    exact SymbolTable.function?_rowFor_isVariable g.symbols name .identifier
  steady hroot _ := by
    obtain ⟨hrow, hsafe⟩ := steady_rowFor hroot hn .identifier Meaning.isVariable
    have hroot' : (g.symbols.rowFor name .identifier Meaning.isVariable).2.scopes.Rooted := by
      rw [SymbolTable.scopes_rowFor]
      exact hroot
    exact hrow.trans (steady_setMeaning hroot' hsafe)
  definitions := rfl
  lastDefined := rfl
  program := ⟨[], by simp [Generator.setMeaning, hm], .nil _⟩

theorem hushes_bindFresh (hn : E.Bindable name) : Hushes E (bindFresh name) := fun g => by
  simp only [bindFresh, ends_bind, ends_modifyGet, ends_modify, ends_pure, ends_onMemory]
  intro cell m hm
  exact quiet_bind g hn (some cell) (Memory.program_takeCell hm)

theorem hushes_readName (hn : E.Bindable name) : Hushes E (readName name) := by
  refine hushes_bind hushes_get fun g => ?_
  split
  · exact hushes_bind (hushes_pure _) fun _ => hushes_push
  · exact hushes_bind (hushes_bindFresh hn) fun _ => hushes_push

theorem hushes_assignTo (hn : E.Bindable name) : Hushes E (assignTo name) := by
  refine hushes_bind hushes_get fun g => ?_
  split
  · exact hushes_bind (hushes_pure _) fun _ => hushes_push
  · exact hushes_bind (hushes_bindFresh hn) fun _ => hushes_push

theorem hushes_requireCell : Hushes E (requireCell name line) := by
  refine hushes_bind hushes_get fun g => ?_
  split
  · exact hushes_report
  · exact hushes_pure ()

theorem hushes_bindGlobal (hn : E.Bindable name) : Hushes E (bindGlobal name line) := fun g => by
  simp only [bindGlobal, ends_bind, ends_get]
  split
  · exact (ends_pure ()).2 (.refl E g)
  · split
    · exact ends_report.2 (.of_eq rfl rfl rfl rfl)
    · rename_i cell _
      simp only [ends_bind, ends_modifyGet, ends_modify]
      exact quiet_bind g hn (some cell) rfl

theorem hushes_operate {op : Opcode}
    (hop : op = .add ∨ op = .sub ∨ op = .mult ∨ op = .eq ∨ op = .lt) {left right : Operand} :
    Hushes E (operate op left right) :=
  hushes_bind hushes_freshTemp fun _ =>
    hushes_bind (hushes_emit (Instruction.plain_binary hop _ _ _)) fun _ => hushes_push

theorem hushes_combine {op : Opcode} (hop : op = .add ∨ op = .sub ∨ op = .mult) :
    Hushes E (combine op line) := by
  refine hushes_bind hushes_takeValue fun _ => hushes_bind hushes_takeValue fun _ =>
    hushes_operate ?_
  rcases hop with rfl | rfl | rfl <;> simp

theorem hushes_relate : Hushes E (relate line) := by
  refine hushes_bind hushes_takeValue fun _ => hushes_bind hushes_pop fun marker =>
    hushes_bind hushes_takeValue fun _ => hushes_operate ?_
  unfold relation
  split <;> simp

theorem hushes_element {asValue : Bool} : Hushes E (element line asValue) :=
  hushes_bind hushes_takeValue fun _ => hushes_bind hushes_takeValue fun _ =>
    hushes_bind hushes_get fun _ => hushes_bind hushes_freshTemp fun _ =>
      hushes_bind (hushes_emit (Instruction.plain_binary (by simp) _ _ _)) fun _ =>
        hushes_bind hushes_freshTemp fun _ =>
          hushes_bind (hushes_emit (Instruction.plain_binary (by simp) _ _ _)) fun _ => hushes_push

theorem hushes_startList : Hushes E startList := hushes_bind hushes_get fun _ => hushes_push

theorem hushes_storeItem : Hushes E (storeItem line) :=
  hushes_bind hushes_takeValue fun _ => hushes_bind hushes_takeNextCell fun _ =>
    hushes_emit (Instruction.plain_assign _ _)

theorem hushes_store : Hushes E (store line) :=
  hushes_bind hushes_takeValue fun _ => hushes_bind hushes_pop fun _ =>
    hushes_bind hushes_get fun _ => hushes_emit (Instruction.plain_assign _ _)

theorem hushes_printValue : Hushes E (printValue line) :=
  hushes_bind hushes_takeValue fun _ => hushes_emit (Instruction.plain_print _)

theorem hushes_startCall : Hushes E (startCall name) :=
  hushes_bind hushes_push fun _ => hushes_modify fun _ => .of_eq rfl rfl rfl rfl

theorem hushes_countArgument : Hushes E countArgument := by
  refine hushes_bind (hushes_modifyGet fun g => ?_) fun _ => hushes_push
  split <;> exact .of_eq rfl rfl rfl rfl

theorem hushes_dropResult : Hushes E dropResult := by
  refine hushes_bind hushes_pop fun result => hushes_bind hushes_get fun g => ?_
  split
  · split
    · exact hushes_bind (hushes_modify fun _ => .of_eq rfl rfl rfl rfl) fun _ => hushes_dropTemp
    · exact hushes_pure ()
  · exact hushes_pure ()

/-- Appending code changes nothing but the program. -/
theorem appendAll_frame (g : Generator) (code : List Instruction) :
    (g.appendAll code).symbols = g.symbols ∧ (g.appendAll code).definitions = g.definitions ∧
      (g.appendAll code).lastDefined = g.lastDefined := by
  induction code generalizing g with
  | nil => exact ⟨rfl, rfl, rfl⟩
  | cons i code ih => exact ih (g.append (some i))

/-- The code of a power, with its three temporaries. -/
theorem program_withPower (g : Generator) (base exponent : Operand) :
    (g.withPower base exponent).memory.program = g.memory.program ++
      ((powerCode base exponent g.memory.tempNext g.withTemp.memory.tempNext
        g.withTemp.withTemp.memory.tempNext g.programNext).map some).toArray := by
  simp only [Generator.withPower, Generator.push, Generator.dropTemp, Memory.program_dropTemp,
    program_appendAll]
  rfl

/-- A power is computed by code that runs on to its end. -/
theorem quiet_withPower (g : Generator) (base exponent : Operand) :
    Quiet E g (g.withPower base exponent) := by
  have hframe := appendAll_frame g.withTemp.withTemp.withTemp
  have hprogram := program_withPower g base exponent
  have hsymbols : (g.withPower base exponent).symbols = g.symbols := by
    simp only [Generator.withPower, Generator.push, Generator.dropTemp, (hframe _).1]
    rfl
  have hdefs : (g.withPower base exponent).definitions = g.definitions := by
    simp only [Generator.withPower, Generator.push, Generator.dropTemp, (hframe _).2.1]
    rfl
  have hlast : (g.withPower base exponent).lastDefined = g.lastDefined := by
    simp only [Generator.withPower, Generator.push, Generator.dropTemp, (hframe _).2.2]
    rfl
  have hstraight : Straight g.symbols.Visible g.programNext _ :=
    .power base exponent g.memory.tempNext g.withTemp.memory.tempNext
      g.withTemp.withTemp.memory.tempNext (.nil (g.programNext + 7))
  rw [List.append_nil] at hstraight
  exact .of_program hsymbols hprogram hstraight hdefs hlast

theorem hushes_raise : Hushes E (raise line) := fun g => by
  rcases h₁ : g.takeValue line with ⟨exponent, g₁⟩
  rcases h₂ : g₁.takeValue line with ⟨base, g₂⟩
  have htook : ∀ (g : Generator), Quiet E g (g.takeValue line).2 := fun g => by
    obtain ⟨st, voids, errors, hst⟩ := g.takeValue_frame line
    rw [hst]
    exact .of_eq rfl rfl rfl rfl
  have hquiet : Quiet E g g₂ := by
    have hfirst := htook g
    have hsecond := htook g₁
    rw [h₁] at hfirst
    rw [h₂] at hsecond
    exact hfirst.trans hsecond
  exact ends_raise h₁ h₂ fun _ _ => hquiet.trans (quiet_withPower g₂ base exponent)

/-- A function is entered, and comes back to the slot behind the call. -/
theorem quiet_jumpInto {g : Generator} {info : FunctionInfo} (hinfo : g.symbols.Visible info) :
    Ends (jumpInto info) g fun _ g' => Quiet E g g' := by
  refine ends_jumpInto.mono ?_
  rintro _ g' rfl
  have hprogram : ∀ (p : Array (Option Instruction)) (i j : Instruction),
      (p.push (some i)).push (some j) = p ++ ([i, j].map some).toArray := by
    intro p i j
    rw [Array.push_eq_append, Array.push_eq_append, Array.append_assoc]
    rfl
  exact .of_program rfl (hprogram _ _ _) (.call hinfo (.nil _)) rfl rfl

theorem quiet_callFunction {g : Generator} {row : Nat} {info : FunctionInfo}
    {arguments : List Operand} (hinfo : g.symbols.Visible info) :
    Ends (callFunction row info arguments) g fun _ g' => Quiet E g g' := by
  simp only [callFunction, ends_bind, ends_get]
  refine (ends_forM (P := fun g' => Quiet E g g' ∧ g'.symbols = g.symbols)
    ⟨.refl E g, rfl⟩ ?_).mono ?_
  · rintro ⟨argument, cell⟩ - g₁ ⟨hquiet, hsymbols⟩
    rw [ends_emit]
    exact fun _ => ⟨hquiet.trans (.append (Instruction.plain_assign _ _)), hsymbols⟩
  rintro _ g₁ ⟨hquiet, hsymbols⟩
  refine (quiet_jumpInto (E := E) (hsymbols ▸ hinfo)).mono fun _ g₂ h₂ => ?_
  refine (hushes_freshTemp (E := E) _).mono fun result g₃ h₃ => ?_
  refine (hushes_emit (E := E) (Instruction.plain_assign _ _) _).mono fun _ g₄ h₄ => ?_
  have hdone : Quiet E g g₄ := ((hquiet.trans h₂).trans h₃).trans h₄
  split
  · simp only [ends_bind, ends_modify, ends_push]
    exact hdone.trans (.of_eq rfl rfl rfl rfl)
  · simp only [ends_push]
    exact hdone.trans (.of_eq rfl rfl rfl rfl)

theorem hushes_resolveCall : Hushes E (resolveCall line) := by
  refine hushes_bind hushes_pop fun counter => hushes_bind hushes_get fun _ =>
    hushes_bind (hushes_takeValues _) fun arguments => hushes_bind hushes_get fun _ =>
      hushes_bind (hushes_modify fun _ => .of_eq rfl rfl rfl rfl) fun _ => fun g => ?_
  simp only [ends_bind, ends_get]
  split
  · rename_i row info hcallee
    exact quiet_callFunction (SymbolTable.visible_of_callee? hcallee)
  · simp only [ends_bind, ends_report, ends_push]
    exact .of_eq rfl rfl rfl rfl

end Hushes

/-- **The actions that only compute.** The others open or close something, or leave it. -/
def Computes : Action → Bool
  | .save | .falseJump | .falseJumpSave | .jump | .loopBegin | .loopEnd | .breakLoop
  | .continueLoop | .enterFunction | .param | .paramsDone | .returnValue | .returnVoid
  | .exitFunction | .checkOverload => false
  | _ => true

/-- **What only computes is quiet,** if it binds no loop keyword. -/
theorem hushes_perform {E : Setting} {a : Action} {lexeme : String} {line : Nat}
    (ha : Computes a = true) (hn : a.behind? = some .identifier → E.Bindable lexeme) :
    Hushes E (perform a lexeme line) := by
  cases a with
  | pushId => exact hushes_readName (hn rfl)
  | pushNumber => exact hushes_push
  | pushTarget => exact hushes_assignTo (hn rfl)
  | checkDefined => exact hushes_requireCell
  | elementAddress => exact hushes_element
  | elementValue => exact hushes_element
  | listBegin => exact hushes_startList
  | listItem => exact hushes_storeItem
  | add => exact hushes_combine (by simp)
  | sub => exact hushes_combine (by simp)
  | mult => exact hushes_combine (by simp)
  | power => exact hushes_raise
  | markEq => exact hushes_push
  | markLt => exact hushes_push
  | compare => exact hushes_relate
  | assign => exact hushes_store
  | print => exact hushes_printValue
  | global => exact hushes_bindGlobal (hn rfl)
  | beginCall => exact hushes_startCall
  | takeArgument => exact hushes_countArgument
  | dispatch => exact hushes_resolveCall
  | discardResult => exact hushes_dropResult
  | _ => cases ha

section Extends

variable {E : Setting} {line : Nat}

theorem builds_emitReturn {info : FunctionInfo} {value : Operand} :
    Builds (fun _ => True) (emitReturn info value) :=
  builds_bind (builds_emit trivial) fun _ => builds_emit trivial

theorem builds_returnWith : Builds (fun _ => True) (returnWith line) := by
  refine builds_bind builds_takeValue fun _ => builds_bind builds_returningFrom fun row? => ?_
  split
  · exact builds_pure ()
  · exact builds_bind builds_functionOn fun _ => builds_bind builds_emitReturn fun _ =>
      builds_modify fun _ => rfl

theorem builds_endFunction : Builds (fun _ => True) endFunction := by
  refine builds_bind builds_publish fun _ => builds_bind builds_get fun g => ?_
  split
  · exact builds_pure ()
  · rename_i d rest hds
    have hclose : Builds (fun _ => True) (do
        settle (some d.aroundSlot) (.jump (← get).programNext)
        modify (·.leaveScope)
        modify ({ · with lastDefined := some d.row })) :=
      builds_bind builds_get fun _ => builds_bind (builds_settle trivial) fun _ =>
        builds_bind (builds_modify fun _ => rfl) fun _ => builds_modify fun _ => rfl
    refine builds_bind (builds_modify fun _ => rfl) fun _ => ?_
    dsimp only
    split
    · exact builds_bind builds_functionOn fun _ => builds_bind builds_emitReturn fun _ => hclose
    · exact hclose

theorem Quiet.extends {g g' : Generator} (h : Quiet E g g') :
    Extends (fun _ => True) g.memory.program g'.memory.program := by
  obtain ⟨code, hcode, -⟩ := h.program
  rw [hcode]
  refine ⟨by simp, fun s i hi => ?_, fun _ _ _ => .inr trivial⟩
  rw [Array.getElem?_append_left (Array.getElem?_eq_some_iff.1 hi).1]
  exact hi

/-- **Whatever an action does, the program only gets more.** -/
theorem extends_perform {a : Action} {lexeme : String} {g : Generator}
    (hn : a.behind? = some .identifier → E.Bindable lexeme) :
    Ends (perform a lexeme line) g fun _ g' =>
      Extends (fun _ => True) g.memory.program g'.memory.program := by
  have hbuilds : ∀ {x : Emit Unit}, Builds (fun _ => True) x → Ends x g fun _ g' =>
      Extends (fun _ => True) g.memory.program g'.memory.program := fun hx =>
    (hx g).mono fun _ _ h => h.program
  have hjump : ∀ i : Instruction, i.target? = none → True := fun _ _ => trivial
  by_cases ha : Computes a = true
  · exact (hushes_perform ha hn g).mono fun _ _ h => h.extends
  cases a with
  | save => exact hbuilds builds_holdSlot
  | falseJump => exact hbuilds (builds_settleCondition hjump)
  | falseJumpSave => exact hbuilds (builds_startElse hjump)
  | jump => exact hbuilds (builds_endElse hjump)
  | loopBegin => exact hbuilds builds_startLoop
  | loopEnd => exact hbuilds (builds_endLoop hjump)
  | breakLoop => exact hbuilds builds_leaveLoop
  | continueLoop => exact hbuilds builds_leaveLoop
  | enterFunction => exact hbuilds builds_startFunction
  | param => exact hbuilds builds_addParameter
  | paramsDone => exact hbuilds builds_publish
  | returnValue => exact hbuilds builds_returnWith
  | returnVoid => exact hbuilds (builds_returnNothing hjump)
  | exitFunction => exact hbuilds builds_endFunction
  | checkOverload => exact hbuilds builds_retireRivals
  | _ => exact absurd rfl ha

end Extends

end OnePass.Emission
