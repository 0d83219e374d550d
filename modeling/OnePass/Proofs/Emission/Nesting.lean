import OnePass.Proofs.Emission.Aloof
import OnePass.Proofs.Emission.Owned

/-!
# Open layers and their scopes

Every open layer has a scope of its own, which lies in the scope of the layer around it, and
a definition is where its layer says. So a definition ends in the scope of its row, and
what it hides from then on is what stood in its body.

* `Nesting`: the scopes and definitions of open layers. `Nesting.mono`.
* `Kept`: cells have one owner while these layers are open.
* `Kept.fades`, `Kept.enterLoop`, `Kept.leaveLoop`, …: steps on the table.
* `aloof_owned`, `aloof_nesting`, `aloof_kept`: operands and code have nothing to do with it.
-/

namespace OnePass.Emission

open Grammar (Layer)
open Names Target

/-- **The scopes and the definitions of open layers,** innermost first. -/
inductive Nesting (t : SymbolTable) (globals : List Nat) :
    List Layer → List Definition → Nat → Prop
  | outermost : Nesting t globals [] [] Scopes.outermost
  | loop {layers : List Layer} {defs : List Definition} {cur outer : Nat}
      (hsteady : Layer.steady layers = true) (hat : t.scopes.At cur .loop (some outer))
      (h : Nesting t globals layers defs outer) : Nesting t globals (.loop :: layers) defs cur
  | header {d : Definition} {layers : List Layer} {defs : List Definition} {cur outer : Nat}
      (hsteady : Layer.steady layers = true) (hd : d.header.isSome)
      (hat : t.scopes.At cur (.body d.row) (some outer)) (hs : t.scope? d.row = some outer)
      (hl : t.Lives d.row) (hc : t.cell? d.row = none)
      (hg : ∀ row ∈ globals, ∃ s, t.scope? row = some s ∧ s ≠ cur)
      (h : Nesting t globals layers defs outer) :
      Nesting t globals (.header :: layers) (d :: defs) cur
  | body {d : Definition} {layers : List Layer} {defs : List Definition} {cur outer : Nat}
      (hsteady : Layer.steady layers = true) (hd : d.header = none)
      (hat : t.scopes.At cur (.body d.row) (some outer)) (hs : t.scope? d.row = some outer)
      (hl : t.Lives d.row) (h : Nesting t globals layers defs outer) :
      Nesting t globals (.body :: layers) (d :: defs) cur

section Nesting

variable {t t' : SymbolTable} {globals globals' : List Nat} {layers : List Layer}
  {defs rest : List Definition} {d : Definition} {cur : Nat}

/-- What is open stays open while scopes and rows stay, and the rows of definitions live. -/
theorem Nesting.mono (h : Nesting t globals layers defs cur)
    (hat : ∀ s r p, t.scopes.At s r p → t'.scopes.At s r p)
    (hscope : ∀ row s, t.scope? row = some s → t'.scope? row = some s)
    (hcell : ∀ d ∈ defs, t'.cell? d.row = t.cell? d.row)
    (hlives : ∀ d ∈ defs, t.Lives d.row → t'.Lives d.row) :
    Nesting t' globals layers defs cur := by
  induction h with
  | outermost => exact .outermost
  | loop hsteady ha _ ih => exact .loop hsteady (hat _ _ _ ha) (ih hcell hlives)
  | header hsteady hd ha hs hl hc hg _ ih =>
    obtain ⟨hhead, hrest⟩ := List.forall_mem_cons.1 hlives
    obtain ⟨hcell, hcells⟩ := List.forall_mem_cons.1 hcell
    refine .header hsteady hd (hat _ _ _ ha) (hscope _ _ hs) (hhead hl) (hcell.trans hc) ?_
      (ih hcells hrest)
    intro row hrow
    obtain ⟨s, hs', hne⟩ := hg row hrow
    exact ⟨s, hscope row s hs', hne⟩
  | body hsteady hd ha hs hl _ ih =>
    obtain ⟨hhead, hrest⟩ := List.forall_mem_cons.1 hlives
    exact .body hsteady hd (hat _ _ _ ha) (hscope _ _ hs) (hhead hl)
      (ih (List.forall_mem_cons.1 hcell).2 hrest)

/-- Where no parameters are being read, global names may be bound. -/
theorem Nesting.withGlobals (h : Nesting t globals layers defs cur)
    (hs : Layer.steady layers = true) : Nesting t globals' layers defs cur := by
  induction h with
  | outermost => exact .outermost
  | loop hsteady ha _ ih => exact .loop hsteady ha (ih hsteady)
  | header => cases hs
  | body hsteady hd ha hscope hl _ ih => exact .body hsteady hd ha hscope hl (ih hsteady)

/-- Statements may stand around whatever is open. -/
theorem Nesting.steady_tail {l : Layer} (h : Nesting t globals (l :: layers) defs cur) :
    Layer.steady layers = true := by
  cases h <;> assumption

/-- Parameters are read by the innermost definition, in its own scope. -/
theorem Nesting.of_header (h : Nesting t globals (.header :: layers) defs cur) :
    ∃ d rest info outer, defs = d :: rest ∧ Layer.steady layers = true ∧ d.header = some info ∧
      t.scopes.At cur (.body d.row) (some outer) ∧ t.scope? d.row = some outer ∧ t.Lives d.row ∧
        t.cell? d.row = none ∧ (∀ row ∈ globals, ∃ s, t.scope? row = some s ∧ s ≠ cur) ∧
          Nesting t globals layers rest outer := by
  cases h with
  | header hsteady hd ha hs hl hc hg h =>
    obtain ⟨info, hinfo⟩ := Option.isSome_iff_exists.1 hd
    exact ⟨_, _, info, _, rfl, hsteady, hinfo, ha, hs, hl, hc, hg, h⟩

/-- A body is that of the innermost definition, and stands in the scope of its row. -/
theorem Nesting.of_body (h : Nesting t globals (.body :: layers) defs cur) :
    ∃ d rest outer, defs = d :: rest ∧ Layer.steady layers = true ∧ d.header = none ∧
      t.scopes.At cur (.body d.row) (some outer) ∧ t.scope? d.row = some outer ∧ t.Lives d.row ∧
        Nesting t globals layers rest outer := by
  cases h with
  | body hsteady hd ha hs hl h => exact ⟨_, _, _, rfl, hsteady, hd, ha, hs, hl, h⟩

/-- The innermost definition may change in what is not its row, and keep its header or not have
one. -/
theorem Nesting.mapDefinition {f : Definition → Definition} (hrow : ∀ d, (f d).row = d.row)
    (hheader : ∀ d, (f d).header.isSome = d.header.isSome) (h : Nesting t globals layers (d :: rest) cur) :
    Nesting t globals layers (f d :: rest) cur := by
  generalize hdefs : d :: rest = defs at h
  induction h with
  | outermost => cases hdefs
  | loop hsteady ha _ ih => exact .loop hsteady ha (ih hdefs)
  | header hsteady hd ha hs hl hc hg h _ =>
    cases hdefs
    refine .header hsteady ?_ ?_ ?_ ?_ ?_ hg h
    · rw [hheader]
      exact hd
    · rw [hrow]
      exact ha
    · rw [hrow]
      exact hs
    · rw [hrow]
      exact hl
    · rw [hrow]
      exact hc
  | body hsteady hd ha hs hl h _ =>
    cases hdefs
    refine .body hsteady ?_ ?_ ?_ ?_ h
    · rw [← Option.not_isSome_iff_eq_none, hheader, hd]
      nofun
    · rw [hrow]
      exact ha
    · rw [hrow]
      exact hs
    · rw [hrow]
      exact hl

/-- Where no parameters are being read, no definition has a header. -/
theorem Nesting.headers (h : Nesting t globals layers defs cur)
    (hs : Layer.steady layers = true) : ∀ d ∈ defs, d.header = none := by
  induction h with
  | outermost => nofun
  | loop hsteady _ _ ih => exact ih hsteady
  | header => cases hs
  | body hsteady hd _ _ _ _ ih => exact List.forall_mem_cons.2 ⟨hd, ih hsteady⟩

/-- The outermost scope is around all others. -/
theorem Nesting.outermost_mem (h : Nesting t globals layers defs cur) (ho : t.Orderly)
    (hr : t.scopes.Rooted) : Scopes.outermost ∈ t.scopes.enclosing cur := by
  induction h with
  | outermost => exact Scopes.mem_enclosing_self hr.at.lt_size
  | loop _ ha _ ih => exact ha.mem_enclosing ho.nested ih
  | header _ _ ha _ _ _ _ _ ih => exact ha.mem_enclosing ho.nested ih
  | body _ _ ha _ _ _ ih => exact ha.mem_enclosing ho.nested ih

/-- The rows of open definitions lie outside the current scope. -/
theorem Nesting.lt_current (h : Nesting t globals layers defs cur) (ho : t.Orderly) :
    ∀ d ∈ defs, ∃ s, t.scope? d.row = some s ∧ s < cur := by
  induction h with
  | outermost => nofun
  | loop _ ha _ ih =>
    intro d hd
    obtain ⟨s, hs, hlt⟩ := ih d hd
    exact ⟨s, hs, Nat.lt_trans hlt (ha.lt ho.nested)⟩
  | header _ _ ha hs _ _ _ _ ih | body _ _ ha hs _ _ ih =>
    have houter := ha.lt ho.nested
    refine List.forall_mem_cons.2 ⟨⟨_, hs, houter⟩, fun d hd => ?_⟩
    obtain ⟨s, hs, hlt⟩ := ih d hd
    exact ⟨s, hs, Nat.lt_trans hlt houter⟩

/-- A row of the current scope is none of an open definition, and may change its meaning. -/
theorem Nesting.setMeaning (h : Nesting t globals layers defs cur) (ho : t.Orderly) {row : Nat}
    (hrow : t.scope? row = some cur) (m : Meaning) :
    Nesting (t.setMeaning row m) globals layers defs cur := by
  refine h.mono (fun _ _ _ h => h) (fun _ _ hs => SymbolTable.scope?_setMeaning.trans hs)
    (fun d hd => ?_) fun d _ ⟨n, hn, hu⟩ => ⟨n, SymbolTable.name?_setMeaning.trans hn, hu⟩
  obtain ⟨s, hs, hlt⟩ := h.lt_current ho d hd
  refine SymbolTable.cell?_setMeaning.trans (if_neg ?_)
  rintro rfl
  exact absurd (Option.some.inj (hrow.symm.trans hs)) (Nat.ne_of_gt hlt)

end Nesting

/-- Operands and code have nothing to do with owners. -/
theorem aloof_owned {c : Config} {globals others : List Nat} : Aloof (Owned c globals others) where
  aside h hsymbols hmemory hdefs _ _ := by
    refine h.of_eq hsymbols ?_ ?_ ?_ fun d hd f hf => ⟨d, hdefs ▸ hd, rfl, hf⟩
    · rw [hmemory]
      exact h.memory
    · rw [hmemory]
    · rw [hmemory]
  append {g} content h hlt := by
    have hsize : (g.append content).memory.program.size ≤ c.programSize := by
      have := h.memory.programSize
      change (g.memory.program.push content).size ≤ _
      rw [Array.size_push]
      change g.memory.program.size < _ at hlt
      omega
    exact h.of_eq rfl { h.memory with size := hsize } rfl rfl fun d hd f hf => ⟨d, hd, rfl, hf⟩
  filled {g} slot i h := by
    refine h.of_eq rfl { h.memory with size := ?_ } rfl rfl fun d hd f hf => ⟨d, hd, rfl, hf⟩
    change (g.memory.program.setIfInBounds slot (some i)).size ≤ _
    rw [Array.size_setIfInBounds]
    exact h.memory.size
  withTemp h hle :=
    h.of_eq rfl (h.memory.withTemp hle) rfl rfl fun d hd f hf => ⟨d, hd, rfl, hf⟩
  dropTemp {g} cell h := by
    refine h.of_eq rfl (h.memory.dropTemp cell) (g.dataNext_dropTemp cell) ?_
      fun d hd f hf => ⟨d, hd, rfl, hf⟩
    change (g.memory.dropTemp cell).spareCells = _
    unfold Memory.dropTemp
    split <;> rfl
  mapDefinition {g f} h hrow _ hheader := by
    refine h.of_eq rfl h.memory rfl rfl fun d' hd' info hinfo => ?_
    change d' ∈ (g.mapDefinition f).definitions at hd'
    unfold Generator.mapDefinition at hd'
    cases hdefs : g.definitions with
    | nil =>
      rw [hdefs] at hd'
      cases hd'
    | cons d rest =>
      rw [hdefs] at hd'
      rcases List.mem_cons.1 hd' with rfl | hd'
      · exact ⟨d, List.mem_cons_self, (hrow d).symm, (hheader d).symm.trans hinfo⟩
      · exact ⟨d', List.mem_cons_of_mem _ hd', rfl, hinfo⟩
  calls _ h := h.of_eq rfl h.memory rfl rfl fun d hd f hf => ⟨d, hd, rfl, hf⟩

/-- They have nothing to do with what is open, either. -/
theorem aloof_nesting {globals : List Nat} {layers : List Layer} (scope : SymbolTable → Nat) :
    Aloof fun g => Nesting g.symbols globals layers g.definitions (scope g.symbols) where
  aside h hsymbols _ hdefs _ _ := by
    rw [hsymbols, hdefs]
    exact h
  append _ h _ := h
  filled _ _ h := h
  withTemp h _ := h
  dropTemp _ h := h
  mapDefinition {g f} h hrow _ hheader := by
    unfold Generator.mapDefinition
    cases hdefs : g.definitions with
    | nil =>
      rw [hdefs] at h
      exact h
    | cons d rest =>
      rw [hdefs] at h
      exact h.mapDefinition hrow fun d => congrArg Option.isSome (hheader d)
  calls _ h := h

/-- **Cells have one owner while these layers are open.** -/
structure Kept (c : Config) (globals others : List Nat) (layers : List Layer) (g : Generator) :
    Prop where
  owned : Owned c globals others g
  nesting : Nesting g.symbols globals layers g.definitions g.currentScope

variable {c : Config} {globals others : List Nat} {layers : List Layer} {g g' : Generator}
  {row : Nat} {name : String}

theorem aloof_kept : Aloof (Kept c globals others layers) :=
  (aloof_owned.and (aloof_nesting SymbolTable.currentScope)).congr fun _ =>
    ⟨fun h => ⟨h.owned, h.nesting⟩, fun h => ⟨h.1, h.2⟩⟩

namespace Kept

/-- **A step on the table** that takes notice of no cell. -/
theorem fades (h : Kept c globals others layers g) {t : SymbolTable}
    (hf : g.symbols.Fades t) (hcurrent : t.currentScope = g.currentScope)
    (hnames : ∀ row n, g.symbols.name? row = some n → t.name? row = some n)
    (hfun : ∀ row f', t.function? row = some f' →
      ∃ f, g.symbols.function? row = some f ∧ f'.cells = f.cells ∧ f'.params = f.params) :
    Kept c globals others layers { g with symbols := t } := by
  refine ⟨h.owned.fades hf h.owned.memory rfl rfl ?_, ?_⟩
  · rintro row f' (⟨hrow, hl⟩ | hrow)
    · obtain ⟨f, hrow', hcells⟩ := hfun row f' hrow
      exact ⟨f, .inl ⟨hrow', SymbolTable.lives_of_names hnames hrow' hl⟩, hcells⟩
    · exact ⟨f', .inr hrow, rfl, rfl⟩
  · change Nesting t globals layers g.definitions t.currentScope
    rw [hcurrent]
    exact h.nesting.mono hf.places hf.scopes (fun d _ => hf.cells d.row) fun d _ ⟨n, hn, hu⟩ =>
      ⟨n, hnames d.row n hn, hu⟩

/-- A name gets a row in the current scope. -/
theorem rowFor (h : Kept c globals others layers g) (name : String) (reuse : Meaning → Bool) :
    Kept c globals others layers (g.rowFor name reuse).2 := by
  have hfades : g.symbols.Fades (g.symbols.rowFor name .identifier reuse).2 :=
    SymbolTable.fades_rowFor h.owned.orderly h.owned.rooted
  refine h.fades (t := (g.symbols.rowFor name .identifier reuse).2) hfades ?_
    (fun _ _ => SymbolTable.name?_rowFor_of_some) fun row f hf => ?_
  · exact congrArg Scopes.current (SymbolTable.scopes_rowFor _ _ _ _)
  · rw [SymbolTable.function?_rowFor] at hf
    exact ⟨f, hf, rfl, rfl⟩

/-- **A token is recorded** in the current scope. -/
theorem record (h : Kept c globals others layers g) (token : Lexical.Token) :
    Kept c globals others layers { g with symbols := g.symbols.record token } := by
  refine h.fades (SymbolTable.fades_record h.owned.orderly h.owned.rooted token) ?_
    (fun _ _ hn => SymbolTable.name?_record_of_some hn token) fun row f hf => ?_
  · exact congrArg Scopes.current (SymbolTable.scopes_record _ _)
  · rw [SymbolTable.function?_record] at hf
    exact ⟨f, hf, rfl, rfl⟩

/-- **The loops are recorded** on the row of their keyword. -/
theorem setLoops (h : Kept c globals others layers g)
    (hk : c.keywords.contains loopKeyword = true) (hn : g.symbols.name? row = some loopKeyword)
    (hf : g.symbols.function? row = none) (record : LoopRecord) :
    Kept c globals others layers (g.setMeaning row (.loops record)) := by
  have hfades : g.symbols.Fades (g.symbols.setMeaning row (.loops record)) :=
    SymbolTable.fades_setMeaning h.owned.orderly h.owned.rooted (h.owned.keyword hk row hn) rfl
  refine h.fades hfades rfl (fun _ _ hi => SymbolTable.name?_setMeaning.trans hi) fun i f hi => ?_
  rw [SymbolTable.function?_setMeaning hf rfl] at hi
  exact ⟨f, hi, rfl, rfl⟩

/-- **A function only says more of itself:** it keeps its cells. -/
theorem setFunction (h : Kept c globals others layers g) {f f' : FunctionInfo}
    (hf : g.symbols.function? row = some f) (hcells : f'.cells = f.cells)
    (hparams : f'.params = f.params) :
    Kept c globals others layers (g.setMeaning row (.function f')) := by
  have hfades : g.symbols.Fades (g.symbols.setMeaning row (.function f')) :=
    SymbolTable.fades_setMeaning h.owned.orderly h.owned.rooted
      (SymbolTable.cell?_of_function? hf) rfl
  refine h.fades hfades rfl (fun _ _ hi => SymbolTable.name?_setMeaning.trans hi) fun i f₁ hi => ?_
  rw [SymbolTable.function?, SymbolTable.meaning?_setMeaning] at hi
  split at hi
  · rename_i heq
    subst heq
    obtain ⟨m, hm, heq⟩ := Option.bind_eq_some_iff.1 hi
    obtain ⟨_, -, rfl⟩ := Option.map_eq_some_iff.1 hm
    obtain rfl := Option.some.inj heq
    exact ⟨f, hf, hcells, hparams⟩
  · exact ⟨f₁, hi, rfl, rfl⟩

/-- **A loop is entered.** -/
theorem enterLoop (h : Kept c globals others layers g) (hs : Layer.steady layers = true) :
    Kept c globals others (.loop :: layers) (g.enterScope .loop) := by
  have hfades : g.symbols.Fades (g.symbols.enterScope .loop) :=
    SymbolTable.fades_enterScope h.owned.orderly h.owned.rooted nofun
  refine ⟨h.owned.fades hfades h.owned.memory rfl rfl fun row f hr => ⟨f, hr, rfl, rfl⟩, ?_⟩
  refine .loop hs (Scopes.at_enter _ _ _) ?_
  exact h.nesting.mono hfades.places hfades.scopes (fun _ _ => rfl) fun _ _ hl => hl

/-- The scope of the innermost layer is left. -/
theorem leaveScope (h : Owned c globals others g) {region : Region} {outer : Nat}
    (hat : g.symbols.scopes.At g.currentScope region (some outer))
    (hn : Nesting g.symbols globals layers g.definitions outer) :
    Kept c globals others layers g.leaveScope := by
  have hfades : g.symbols.Fades g.symbols.leaveScope :=
    SymbolTable.fades_leaveScope h.orderly h.rooted
  refine ⟨h.fades hfades h.memory rfl rfl fun row f hr => ⟨f, hr, rfl, rfl⟩, ?_⟩
  have hcurrent : g.leaveScope.currentScope = outer := Scopes.current_leave hat _
  rw [hcurrent]
  exact hn.mono hfades.places hfades.scopes (fun _ _ => rfl) fun _ _ hl => hl

/-- **A loop is left.** -/
theorem leaveLoop (h : Kept c globals others (.loop :: layers) g) :
    Kept c globals others layers g.leaveScope := by
  obtain ⟨howned, hnesting⟩ := h
  cases hnesting with
  | loop _ hat hn => exact leaveScope howned hat hn

end Kept

end OnePass.Emission
