import OnePass.Proofs.Emission.Secure
import OnePass.Proofs.Names.Usable

/-!
# States that no action fails in

Whatever a repaired error leaves on the operand stack, an action finds what it cannot do
without: a definition whose parameters have been read has its function on its row, and one
whose parameters are being read has a row that is still free.

* `Stays`: a change of the table that takes no row away from a definition.
* `Calm`: a state with a usable table and such definitions.
* `Firm`: a step that keeps this, and stops at a full zone only. `firm_bind` and the others.
* `firm_bindFresh`, `firm_operate`, `firm_callFunction`, …: the steps of values and calls.
-/

namespace OnePass.Emission

open Names Target
open Lexical (Token TokenKind)

/-- A definition whose function is on its row. -/
def Definition.Published (t : SymbolTable) (d : Definition) : Prop :=
  d.header = none ∧ (t.function? d.row).isSome

/-- A definition whose parameters are being read. Its row can still become that of a function. -/
def Definition.Pending (keywords : List String) (t : SymbolTable) (d : Definition) : Prop :=
  d.header.isSome ∧ (∃ cell, t.meaning? d.row = some (.variable cell)) ∧
    (keywords.contains loopKeyword = true → t.name? d.row ≠ some loopKeyword)

/-- **The definitions around a place:** all of them are published, but for the innermost one while
its parameters are read. -/
def Standing (keywords : List String) (t : SymbolTable) : Bool → List Definition → Prop
  | false, definitions => ∀ d ∈ definitions, d.Published t
  | true, d :: rest => d.Pending keywords t ∧ ∀ d ∈ rest, d.Published t
  | true, [] => False

/-- **A change of the table that takes no row away from a definition,** be it published or, with
`header`, pending. -/
structure Stays (header : Bool) (t t' : SymbolTable) : Prop where
  size : t.rows.size ≤ t'.rows.size
  functions : ∀ row, (t.function? row).isSome → (t'.function? row).isSome
  pending : header = true → ∀ row cell, t.meaning? row = some (.variable cell) →
    (∃ cell', t'.meaning? row = some (.variable cell')) ∧ t'.name? row = t.name? row

section Stays

variable {header : Bool} {t t' t'' : SymbolTable} {row : Nat} {name : String} {kind : TokenKind}
  {m : Meaning} {reuse : Meaning → Bool}

theorem Stays.refl (header : Bool) (t : SymbolTable) : Stays header t t :=
  ⟨Nat.le_refl _, fun _ h => h, fun _ _ cell h => ⟨⟨cell, h⟩, rfl⟩⟩

theorem Stays.trans (h : Stays header t t') (h' : Stays header t' t'') : Stays header t t'' where
  size := Nat.le_trans h.size h'.size
  functions row hr := h'.functions row (h.functions row hr)
  pending hh row cell hm := by
    obtain ⟨⟨cell', hm'⟩, hname⟩ := h.pending hh row cell hm
    obtain ⟨hm'', hname'⟩ := h'.pending hh row cell' hm'
    exact ⟨hm'', hname'.trans hname⟩

/-- Scopes may come and go. -/
theorem Stays.of_rows (h : t'.rows = t.rows) : Stays header t t' := by
  have hm : ∀ i, t'.meaning? i = t.meaning? i := fun i => by
    rw [SymbolTable.meaning?, SymbolTable.meaning?, h]
  have hn : ∀ i, t'.name? i = t.name? i := fun i => by
    rw [SymbolTable.name?, SymbolTable.name?, h]
  refine ⟨Nat.le_of_eq (congrArg Array.size h.symm), fun row hr => ?_, fun _ row cell hc => ?_⟩
  · rw [SymbolTable.function?, hm]
    exact hr
  · exact ⟨⟨cell, (hm row).trans hc⟩, hn row⟩

theorem stays_appendRow : Stays header t (t.appendRow name kind).2 where
  size := by
    rw [SymbolTable.size_appendRow]
    exact Nat.le_succ _
  functions row hr := by
    rw [SymbolTable.function?_appendRow]
    exact hr
  pending _ row cell hm := by
    have hne := Nat.ne_of_lt (SymbolTable.lt_of_meaning? hm)
    rw [SymbolTable.meaning?_appendRow, SymbolTable.name?_appendRow, if_neg hne, if_neg hne]
    exact ⟨⟨cell, hm⟩, rfl⟩

theorem stays_rowFor : Stays header t (t.rowFor name kind reuse).2 := by
  rcases (SymbolTable.rowFor_spec t name kind reuse).2 with ⟨h, -⟩ | h
  · rw [h]
    exact .refl header t
  · rw [h]
    exact stays_appendRow

theorem stays_record (token : Token) : Stays header t (t.record token) := by
  rcases SymbolTable.record_cases t token with h | ⟨h, -⟩
  · rw [h]
    exact .refl header t
  · rw [h]
    exact stays_appendRow

/-- A row that stands for no function may mean something else. While parameters are read it may
only be given a cell. -/
theorem stays_setMeaning (hr : t.function? row = none)
    (hv : header = true → ∃ cell, m = .variable cell) : Stays header t (t.setMeaning row m) where
  size := Nat.le_of_eq SymbolTable.size_setMeaning.symm
  functions i hi := by
    have hne : row ≠ i := by
      rintro rfl
      rw [hr] at hi
      cases hi
    rw [SymbolTable.function?, SymbolTable.meaning?_setMeaning, if_neg hne]
    exact hi
  pending hh i cell hm := by
    rw [SymbolTable.meaning?_setMeaning, SymbolTable.name?_setMeaning]
    obtain ⟨cell', rfl⟩ := hv hh
    refine ⟨?_, rfl⟩
    split
    · exact ⟨cell', by rw [hm]; rfl⟩
    · exact ⟨cell, hm⟩

/-- A row may become a function once no parameters are read. -/
theorem stays_setFunction {info : FunctionInfo} :
    Stays false t (t.setMeaning row (.function info)) where
  size := Nat.le_of_eq SymbolTable.size_setMeaning.symm
  functions i hi := by
    rw [SymbolTable.function?, SymbolTable.meaning?_setMeaning]
    split
    · obtain ⟨info', hinfo⟩ := Option.isSome_iff_exists.1 hi
      obtain ⟨m, hm, -⟩ := Option.bind_eq_some_iff.1 hinfo
      rw [hm]
      rfl
    · exact hi
  pending := nofun

theorem stays_retire : Stays false t (t.retire row) where
  size := Nat.le_of_eq SymbolTable.size_retire.symm
  functions i hi := by
    rw [SymbolTable.function?_retire]
    exact hi
  pending := nofun

end Stays

/-- **A state that no action fails in.** With `header`, the parameters of the innermost definition
are being read. -/
structure Calm (keywords : List String) (header : Bool) (g : Generator) : Prop where
  table : g.symbols.Usable keywords
  standing : Standing keywords g.symbols header g.definitions
  last : ∀ row, g.lastDefined = some row → row < g.symbols.rows.size

section Calm

variable {keywords : List String} {header : Bool} {g g' : Generator} {t : SymbolTable}

/-- Only the table and the definitions matter. -/
theorem Calm.of_eq (h : Calm keywords header g) (hs : g'.symbols = g.symbols)
    (hd : g'.definitions = g.definitions) (hl : g'.lastDefined = g.lastDefined) :
    Calm keywords header g' := by
  refine ⟨hs ▸ h.table, ?_, fun row hr => ?_⟩
  · rw [hs, hd]
    exact h.standing
  · rw [hs]
    exact h.last row (hl ▸ hr)

theorem Definition.Published.stays {d : Definition} (h : d.Published g.symbols)
    (hs : Stays header g.symbols t) : d.Published t :=
  ⟨h.1, hs.functions _ h.2⟩

/-- **Definitions keep standing** while their rows stay theirs. -/
theorem Standing.stays {definitions : List Definition}
    (h : Standing keywords g.symbols header definitions) (hs : Stays header g.symbols t) :
    Standing keywords t header definitions := by
  cases header with
  | false => exact fun d hd => (h d hd).stays hs
  | true =>
    cases definitions with
    | nil => exact h
    | cons d rest =>
      obtain ⟨⟨hheader, ⟨cell, hm⟩, hname⟩, hrest⟩ := h
      obtain ⟨hm', hname'⟩ := hs.pending rfl d.row cell hm
      exact ⟨⟨hheader, hm', hname' ▸ hname⟩, fun d hd => (hrest d hd).stays hs⟩

/-- The rows of definitions are there, whether they stand for functions yet or not. -/
theorem Standing.lt {definitions : List Definition} (h : Standing keywords t header definitions) :
    ∀ d ∈ definitions, d.row < t.rows.size := by
  have hpublished : ∀ d : Definition, d.Published t → d.row < t.rows.size := by
    intro d hd
    obtain ⟨info, hinfo⟩ := Option.isSome_iff_exists.1 hd.2
    exact SymbolTable.lt_of_function? hinfo
  cases header with
  | false => exact fun d hd => hpublished d (h d hd)
  | true =>
    cases definitions with
    | nil => exact h.elim
    | cons d rest =>
      obtain ⟨⟨-, ⟨cell, hm⟩, -⟩, hrest⟩ := h
      exact List.forall_mem_cons.2
        ⟨SymbolTable.lt_of_meaning? hm, fun d' hd' => hpublished d' (hrest d' hd')⟩

theorem Calm.withSymbols (h : Calm keywords header g) (ht : t.Usable keywords)
    (hs : Stays header g.symbols t) : Calm keywords header { g with symbols := t } :=
  ⟨ht, h.standing.stays hs, fun row hr => Nat.lt_of_lt_of_le (h.last row hr) hs.size⟩

/-- A change of the innermost definition that leaves its row and its header alone. -/
theorem Calm.mapDefinition (h : Calm keywords header g) {f : Definition → Definition}
    (hrow : ∀ d, (f d).row = d.row)
    (hheader : ∀ d, (f d).header.isSome = d.header.isSome) :
    Calm keywords header (g.mapDefinition f) := by
  have hpublished : ∀ d, d.Published g.symbols → (f d).Published g.symbols := fun d hd => by
    refine ⟨?_, (hrow d).symm ▸ hd.2⟩
    have := hheader d
    rw [hd.1] at this
    simpa using this
  refine ⟨h.table, ?_, h.last⟩
  have hstanding := h.standing
  unfold Generator.mapDefinition
  cases hdefs : g.definitions with
  | nil =>
    rw [hdefs] at hstanding
    exact hstanding
  | cons d rest =>
    rw [hdefs] at hstanding
    cases header with
    | false =>
      obtain ⟨hd, hrest⟩ := List.forall_mem_cons.1 hstanding
      exact List.forall_mem_cons.2 ⟨hpublished d hd, hrest⟩
    | true =>
      obtain ⟨⟨hsome, hm, hname⟩, hrest⟩ := hstanding
      refine ⟨⟨(hheader d).trans hsome, ?_, ?_⟩, hrest⟩
      · rw [hrow]
        exact hm
      · rw [hrow]
        exact hname

theorem Calm.push (h : Calm keywords header g) (o : Operand) : Calm keywords header (g.push o) :=
  h.of_eq rfl rfl rfl

theorem Calm.report (h : Calm keywords header g) (line : Nat) (fault : SemanticFault) :
    Calm keywords header (g.report line fault) :=
  h.of_eq rfl rfl rfl

theorem Calm.append (h : Calm keywords header g) (content : Option Instruction) :
    Calm keywords header (g.append content) :=
  h.of_eq rfl rfl rfl

theorem Calm.withMemory (h : Calm keywords header g) (m : Memory) :
    Calm keywords header { g with memory := m } :=
  h.of_eq rfl rfl rfl

theorem Calm.pop (h : Calm keywords header g) : Calm keywords header g.pop.2 := by
  obtain ⟨st, hst⟩ := g.pop_frame
  rw [hst]
  exact h.of_eq rfl rfl rfl

theorem Calm.takeValue (h : Calm keywords header g) (line : Nat) :
    Calm keywords header (g.takeValue line).2 := by
  change Calm keywords header (g.pop.2.useValue line g.pop.1)
  unfold Generator.useValue
  split
  · split
    · exact h.pop.of_eq rfl rfl rfl
    · exact h.pop
  · exact h.pop

/-- A name gets a row in the current scope. -/
theorem Calm.rowFor (h : Calm keywords header g) (name : String) (reuse : Meaning → Bool) :
    Calm keywords header (g.rowFor name reuse).2 :=
  h.withSymbols (h.table.rowFor reuse) stays_rowFor

/-- A row that stands for no function is given a cell. -/
theorem Calm.setVariable (h : Calm keywords header g) {row : Nat}
    (hr : g.symbols.function? row = none) (cell : Option Nat) :
    Calm keywords header (g.setMeaning row (.variable cell)) :=
  h.withSymbols (h.table.setMeaning nofun nofun) (stays_setMeaning hr fun _ => ⟨cell, rfl⟩)

end Calm

/-- **A step that no calm state fails in,** and that leaves it calm. -/
def Firm (keywords : List String) (header : Bool) {α : Type} (x : Emit α) : Prop :=
  ∀ g, Calm keywords header g →
    Secure (Calm keywords header) x g fun _ g' => Calm keywords header g'

section Firm

variable {α β : Type} {keywords : List String} {header : Bool} {line : Nat}

theorem firm_pure (a : α) : Firm keywords header (pure a) := fun _ h => h

theorem firm_bind {x : Emit α} {f : α → Emit β} (hx : Firm keywords header x)
    (hf : ∀ a, Firm keywords header (f a)) : Firm keywords header (x >>= f) := fun g hg =>
  secure_bind.2 ((hx g hg).mono fun a g₁ hg₁ => hf a g₁ hg₁)

theorem firm_get : Firm keywords header get := fun _ h => h

theorem firm_modify {f : Generator → Generator}
    (h : ∀ g, Calm keywords header g → Calm keywords header (f g)) :
    Firm keywords header (modify f) := h

theorem firm_modifyGet {f : Generator → α × Generator}
    (h : ∀ g, Calm keywords header g → Calm keywords header (f g).2) :
    Firm keywords header (modifyGet f) := h

theorem firm_push {o : Operand} : Firm keywords header (push o) := fun _ h => h.push o

theorem firm_pop : Firm keywords header pop := fun _ h => h.pop

theorem firm_report {fault : SemanticFault} : Firm keywords header (report line fault) :=
  fun _ h => h.report line fault

theorem firm_takeValue : Firm keywords header (takeValue line) := fun _ h => h.takeValue line

theorem firm_takeValues (count : Nat) : Firm keywords header (takeValues line count) := by
  induction count with
  | zero => exact firm_pure _
  | succ count ih =>
    exact firm_bind firm_takeValue fun _ => firm_bind ih fun _ => firm_pure _

theorem firm_emitAt {i : Instruction} : Firm keywords header (emitAt i) := fun _ h =>
  secure_emitAt h (h.append _)

theorem firm_emit {i : Instruction} : Firm keywords header (emit i) := fun _ h =>
  secure_emit h (h.append _)

theorem firm_reserve : Firm keywords header (onMemory (·.reserve)) := fun _ h =>
  secure_reserve h (h.append _)

theorem firm_takeNextCell : Firm keywords header (onMemory (·.takeNextCell)) := fun _ h =>
  secure_takeNextCell h fun _ m => h.withMemory m

theorem firm_freshTemp : Firm keywords header freshTemp := fun _ h =>
  secure_freshTemp h (h.of_eq rfl rfl rfl)

theorem firm_dropTemp {cell : Nat} : Firm keywords header (dropTemp cell) := fun _ h =>
  h.withMemory _

theorem firm_settle {slot : Option Nat} {i : Instruction} :
    Firm keywords header (settle slot i) := fun _ h =>
  secure_settle h fun m => h.withMemory m

theorem firm_forM {γ : Type} {f : γ → Emit Unit} {items : List γ}
    (h : ∀ x, Firm keywords header (f x)) : Firm keywords header (items.forM f) := fun _ hg =>
  secure_forM hg fun x _ g₁ h₁ => h x g₁ h₁

end Firm

section Values

variable {keywords : List String} {header : Bool} {line row : Nat} {name : String}

/-- **A name can always get a cell of its own:** the row it is given stands for no function. -/
theorem firm_bindFresh : Firm keywords header (bindFresh name) := fun g h => by
  simp only [bindFresh, secure_bind, secure_modifyGet, secure_modify, secure_pure]
  have hrow : Calm keywords header (g.rowFor name Meaning.isVariable).2 := h.rowFor name _
  refine secure_takeCell hrow fun cell m => ?_
  refine (hrow.withMemory m).setVariable ?_ (some cell)
  exact SymbolTable.function?_rowFor_isVariable g.symbols name .identifier

theorem firm_readName : Firm keywords header (readName name) := by
  refine firm_bind firm_get fun g => ?_
  split
  · exact firm_bind (firm_pure _) fun _ => firm_push
  · exact firm_bind firm_bindFresh fun _ => firm_push

theorem firm_assignTo : Firm keywords header (assignTo name) := by
  refine firm_bind firm_get fun g => ?_
  split
  · exact firm_bind (firm_pure _) fun _ => firm_push
  · exact firm_bind firm_bindFresh fun _ => firm_push

theorem firm_requireCell : Firm keywords header (requireCell name line) := by
  refine firm_bind firm_get fun g => ?_
  split
  · exact firm_report
  · exact firm_pure ()

theorem firm_bindGlobal : Firm keywords header (bindGlobal name line) := by
  refine firm_bind firm_get fun g => ?_
  split
  · exact firm_pure ()
  · split
    · exact firm_report
    · intro g' h
      simp only [secure_bind, secure_modifyGet, secure_modify]
      refine (h.rowFor name Meaning.isVariable).setVariable ?_ _
      exact SymbolTable.function?_rowFor_isVariable g'.symbols name .identifier

theorem firm_operate {op : Opcode} {left right : Operand} :
    Firm keywords header (operate op left right) :=
  firm_bind firm_freshTemp fun _ => firm_bind firm_emit fun _ => firm_push

theorem firm_combine {op : Opcode} : Firm keywords header (combine op line) :=
  firm_bind firm_takeValue fun _ => firm_bind firm_takeValue fun _ => firm_operate

theorem firm_relate : Firm keywords header (relate line) :=
  firm_bind firm_takeValue fun _ => firm_bind firm_pop fun _ =>
    firm_bind firm_takeValue fun _ => firm_operate

theorem firm_raise : Firm keywords header (raise line) :=
  firm_bind firm_takeValue fun _ => firm_bind firm_takeValue fun _ =>
    firm_bind firm_freshTemp fun _ => firm_bind firm_freshTemp fun _ =>
      firm_bind firm_freshTemp fun _ => firm_bind firm_emit fun _ =>
        firm_bind firm_emit fun _ => firm_bind firm_emitAt fun _ =>
          firm_bind firm_emit fun _ => firm_bind firm_emit fun _ =>
            firm_bind firm_emit fun _ => firm_bind firm_emit fun _ =>
              firm_bind firm_dropTemp fun _ => firm_bind firm_dropTemp fun _ => firm_push

theorem firm_element {asValue : Bool} : Firm keywords header (element line asValue) :=
  firm_bind firm_takeValue fun _ => firm_bind firm_takeValue fun _ => firm_bind firm_get fun _ =>
    firm_bind firm_freshTemp fun _ => firm_bind firm_emit fun _ =>
      firm_bind firm_freshTemp fun _ => firm_bind firm_emit fun _ => firm_push

theorem firm_startList : Firm keywords header startList := firm_bind firm_get fun _ => firm_push

theorem firm_storeItem : Firm keywords header (storeItem line) :=
  firm_bind firm_takeValue fun _ => firm_bind firm_takeNextCell fun _ => firm_emit

theorem firm_store : Firm keywords header (store line) :=
  firm_bind firm_takeValue fun _ => firm_bind firm_pop fun _ => firm_bind firm_get fun _ =>
    firm_emit

theorem firm_printValue : Firm keywords header (printValue line) :=
  firm_bind firm_takeValue fun _ => firm_emit

theorem firm_startCall : Firm keywords header (startCall name) :=
  firm_bind firm_push fun _ => firm_modify fun _ h => h.of_eq rfl rfl rfl

theorem firm_countArgument : Firm keywords header countArgument := by
  refine firm_bind (firm_modifyGet fun g h => ?_) fun _ => firm_push
  split
  · exact h.of_eq rfl rfl rfl
  · exact h

theorem firm_jumpInto {info : FunctionInfo} : Firm keywords header (jumpInto info) :=
  firm_bind firm_get fun _ => firm_bind firm_emit fun _ => firm_emit

theorem firm_callFunction {info : FunctionInfo} {arguments : List Operand} :
    Firm keywords header (callFunction row info arguments) := by
  refine firm_bind (firm_forM fun _ => firm_emit) fun _ => firm_bind firm_jumpInto fun _ =>
    firm_bind firm_freshTemp fun _ => firm_bind firm_emit fun _ => firm_bind firm_get fun g => ?_
  dsimp only
  split
  · exact firm_bind (firm_modify fun _ h => h.of_eq rfl rfl rfl) fun _ => firm_push
  · exact firm_push

/-- **A call goes on whatever the stack holds:** it takes no more values than there are. -/
theorem firm_resolveCall : Firm keywords header (resolveCall line) := by
  refine firm_bind firm_pop fun _ => firm_bind firm_get fun _ =>
    firm_bind (firm_takeValues _) fun _ => firm_bind firm_get fun _ =>
      firm_bind (firm_modify fun _ h => h.of_eq rfl rfl rfl) fun _ => firm_bind firm_get fun _ => ?_
  dsimp only
  split
  · exact firm_callFunction
  · exact firm_bind firm_report fun _ => firm_push

theorem firm_dropResult : Firm keywords header dropResult := by
  refine firm_bind firm_pop fun _ => firm_bind firm_get fun _ => ?_
  split
  · split
    · exact firm_bind (firm_modify fun _ h => h.of_eq rfl rfl rfl) fun _ => firm_dropTemp
    · exact firm_pure ()
  · exact firm_pure ()

end Values

end OnePass.Emission
