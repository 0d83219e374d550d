import OnePass.Proofs.Emission.Unfailing
import OnePass.Proofs.Grammar.Layers
import OnePass.Proofs.Names.Sight

/-!
# Cells and their owners

A variable cell has one owner at a time: a function of the program, a variable in sight, or
whoever holds it besides, such as a list that it is an item of. Two owners share a cell in
two cases only. A parameter's row stands for a cell of its function, and a row that has been
bound to a global name for the cell of that name in the outermost scope.

* `Generator.Has`: the functions of the program. `Held`: the cells in use.
* `Owned`: **cells have one owner.** `Owned.fades`: steps that it takes no notice of.
* `Owned.takeCell`, `Owned.freeCells`: cells that are handed out and given back.
* `Owned.bind`, `Owned.bindGlobal`, `Owned.openHeader`, …: what becomes of a cell in hand.
* `Owned.retire`: a function lets go of its cells.
-/

namespace OnePass.Emission

open Names Target

/-- **A function of the program,** on its row unless it has been retired, or with its parameters
being read. -/
def Generator.Has (g : Generator) (row : Nat) (f : FunctionInfo) : Prop :=
  (g.symbols.function? row = some f ∧ g.symbols.Lives row) ∨
    ∃ d ∈ g.definitions, d.row = row ∧ d.header = some f

/-- **A cell that is in use:** it was handed out and is not free again. -/
def Held (c : Config) (m : Memory) (a : Nat) : Prop := DataCell c m.dataNext a ∧ a ∉ m.spareCells

/-- A cell in use that is none of these others. -/
def HeldApart (c : Config) (m : Memory) (others : List Nat) (a : Nat) : Prop :=
  Held c m a ∧ a ∉ others

/-- **Cells have one owner.** The others are cells that neither a function nor a variable owns, and
the globals are rows that have been bound to a global name. -/
structure Owned (c : Config) (globals others : List Nat) (g : Generator) : Prop where
  orderly : g.symbols.Orderly
  rooted : g.symbols.scopes.Rooted
  memory : g.memory.Regular c
  spare : g.memory.spareCells.Nodup
  nodup : others.Nodup
  inHand : ∀ a ∈ others, Held c g.memory a
  functions : ∀ row f, g.Has row f → f.cells.Nodup ∧ ∀ a ∈ f.cells, HeldApart c g.memory others a
  apart : ∀ row f row' f' a, g.Has row f → g.Has row' f' → a ∈ f.cells → a ∈ f'.cells → row = row'
  seen : ∀ row a, g.symbols.Sees row a → HeldApart c g.memory others a
  /-- A variable shares a function's cell only as one of its parameters, in its body. -/
  parameters : ∀ row a r f, g.symbols.Sees row a → g.Has r f → a ∈ f.cells →
    a ∈ f.params ∧ ∃ s, g.symbols.scope? row = some s ∧
      g.symbols.scopes.region? s = some (.body r)
  distinct : ∀ row row' a, g.symbols.Sees row a → g.symbols.Sees row' a → row ∉ globals →
    row' ∉ globals → row = row'
  globals : ∀ row ∈ globals, (∃ a, g.symbols.cell? row = some a) ∧
    (∃ s, g.symbols.scope? row = some s ∧ s ≠ Scopes.outermost) ∧
      ∀ a, g.symbols.Sees row a → ∃ k, g.symbols.scope? k = some Scopes.outermost ∧
        g.symbols.cell? k = some a ∧ g.symbols.name? k = g.symbols.name? row
  /-- The row of the loops is no variable's. -/
  keyword : c.keywords.contains loopKeyword = true → ∀ row,
    g.symbols.name? row = some loopKeyword → g.symbols.cell? row = none
  /-- The body of a function lies in the scope of its row. -/
  bodies : ∀ s row, g.symbols.scopes.region? s = some (.body row) →
    ∃ s', g.symbols.scope? row = some s' ∧ s' < s

variable {c : Config} {globals others cells : List Nat} {g g' : Generator} {m : Memory} {a row : Nat}

theorem Held.congr {m' : Memory} (h : Held c m a) (hn : m'.dataNext = m.dataNext)
    (hs : m'.spareCells = m.spareCells) : Held c m' a := by
  rw [Held, hn, hs]
  exact h

theorem at_of_region? {t : Scopes} {s : Nat} {region : Region} (h : t.region? s = some region) :
    ∃ parent, t.At s region parent := by
  obtain ⟨scope, hs, hr⟩ := Option.map_eq_some_iff.1 h
  exact ⟨scope.parent, scope, hs, hr, rfl⟩

namespace Owned

/-- **A step that hands out no cell and gives none back** to a name or a function: what is in sight
fades, and the functions keep their cells. -/
theorem fades (h : Owned c globals others g) (hf : g.symbols.Fades g'.symbols)
    (hm : g'.memory.Regular c) (hnext : g'.memory.dataNext = g.memory.dataNext)
    (hspare : g'.memory.spareCells = g.memory.spareCells)
    (hhas : ∀ row f', g'.Has row f' →
      ∃ f, g.Has row f ∧ f'.cells = f.cells ∧ f'.params = f.params) :
    Owned c globals others g' where
  orderly := hf.orderly
  rooted := hf.rooted
  memory := hm
  spare := hspare ▸ h.spare
  nodup := h.nodup
  inHand a ha := (h.inHand a ha).congr hnext hspare
  functions row f' hrow := by
    obtain ⟨f, hfun, hcells, -⟩ := hhas row f' hrow
    rw [hcells]
    obtain ⟨hnodup, hheld⟩ := h.functions row f hfun
    exact ⟨hnodup, fun a ha => (hheld a ha).imp_left fun h => h.congr hnext hspare⟩
  apart row f₁ row' f₂ a h₁ h₂ ha₁ ha₂ := by
    obtain ⟨f, hfun, hcells, -⟩ := hhas row f₁ h₁
    obtain ⟨f', hfun', hcells', -⟩ := hhas row' f₂ h₂
    exact h.apart row f row' f' a hfun hfun' (hcells ▸ ha₁) (hcells' ▸ ha₂)
  seen row a hs := (h.seen row a (hf.sees row a hs)).imp_left fun h => h.congr hnext hspare
  parameters row a r f' hs hr ha := by
    obtain ⟨f, hfun, hcells, hparams⟩ := hhas r f' hr
    obtain ⟨hp, s, hscope, hregion⟩ :=
      h.parameters row a r f (hf.sees row a hs) hfun (hcells ▸ ha)
    obtain ⟨parent, hat⟩ := at_of_region? hregion
    exact ⟨hparams ▸ hp, s, hf.scopes row s hscope, (hf.places s _ parent hat).region?⟩
  distinct row row' a hs hs' :=
    h.distinct row row' a (hf.sees row a hs) (hf.sees row' a hs')
  globals row hrow := by
    obtain ⟨⟨b, hb⟩, ⟨s, hs, hne⟩, hsees⟩ := h.globals row hrow
    refine ⟨⟨b, (hf.cells row).trans hb⟩, ⟨s, hf.scopes row s hs, hne⟩, fun a ha => ?_⟩
    obtain ⟨k, hscope, hcell, hname⟩ := hsees a (hf.sees row a ha)
    refine ⟨k, hf.scopes k _ hscope, (hf.cells k).trans hcell, ?_⟩
    rw [hf.names k a hcell, hf.names row b hb, hname]
  keyword hk row hrow := by
    rw [hf.cells]
    cases hcell : g.symbols.cell? row with
    | none => rfl
    | some a =>
      rw [hf.names row a hcell] at hrow
      rw [← hcell, h.keyword hk row hrow]
  bodies s row hs := by
    rcases hf.bodies s row hs with hs | hs
    · obtain ⟨s', hrow, hlt⟩ := h.bodies s row hs
      exact ⟨s', hf.scopes row s' hrow, hlt⟩
    · exact hs

/-- A step that leaves the table alone, and the cells and the definitions. -/
theorem of_eq (h : Owned c globals others g) (hsymbols : g'.symbols = g.symbols)
    (hm : g'.memory.Regular c) (hnext : g'.memory.dataNext = g.memory.dataNext)
    (hspare : g'.memory.spareCells = g.memory.spareCells)
    (hdefs : ∀ d' ∈ g'.definitions, ∀ f, d'.header = some f →
      ∃ d ∈ g.definitions, d.row = d'.row ∧ d.header = some f) : Owned c globals others g' := by
  have hrefl : g.symbols.Fades g'.symbols := by
    rw [hsymbols]
    exact .refl h.orderly h.rooted
  refine h.fades hrefl hm hnext hspare fun row f hrow => ?_
  refine ⟨f, ?_, rfl, rfl⟩
  rcases hrow with hrow | ⟨d', hd', rfl, hheader⟩
  · exact .inl (hsymbols ▸ hrow)
  · exact .inr (hdefs d' hd' f hheader)

section Cells

/-- **A cell comes into hand** that nobody has. -/
theorem withCell (h : Owned c globals others g) (hm : m.Regular c) (hspare : m.spareCells.Nodup)
    (ha : Held c m a) (hother : a ∉ others)
    (hheld : ∀ b, Held c g.memory b → Held c m b ∧ b ≠ a) :
    Owned c globals (a :: others) { g with memory := m } where
  orderly := h.orderly
  rooted := h.rooted
  memory := hm
  spare := hspare
  nodup := List.nodup_cons.2 ⟨hother, h.nodup⟩
  inHand := List.forall_mem_cons.2 ⟨ha, fun b hb => (hheld b (h.inHand b hb)).1⟩
  functions row f hrow := by
    obtain ⟨hnodup, hcells⟩ := h.functions row f hrow
    refine ⟨hnodup, fun b hb => ?_⟩
    obtain ⟨hb, hne⟩ := hcells b hb
    exact ⟨(hheld b hb).1, List.not_mem_cons_of_ne_of_not_mem (hheld b hb).2 hne⟩
  apart := h.apart
  seen row b hs := by
    obtain ⟨hb, hne⟩ := h.seen row b hs
    exact ⟨(hheld b hb).1, List.not_mem_cons_of_ne_of_not_mem (hheld b hb).2 hne⟩
  parameters := h.parameters
  distinct := h.distinct
  globals := h.globals
  keyword := h.keyword
  bodies := h.bodies

/-- **The next cell in line** is one that nobody has. -/
theorem takeNextCell (h : Owned c globals others g) (hu : 0 < c.unit)
    (htake : g.memory.takeNextCell = .ok (a, m)) :
    Owned c globals (a :: others) { g with memory := m } := by
  obtain ⟨hcell, hregular, hle, heq⟩ := Memory.takeNextCell_spec h.memory hu htake
  have hspare : m.spareCells = g.memory.spareCells := by rw [heq]
  have hnext : a = g.memory.dataNext := by
    rw [Memory.takeNextCell_eq] at htake
    split at htake
    · cases htake
    · cases htake
      rfl
  -- every cell in use lies below the next one
  have hbelow : ∀ b, DataCell c g.memory.dataNext b → b ≠ a := fun b hb => by
    have := hb.1
    omega
  refine h.withCell hregular (hspare ▸ h.spare) ⟨hcell, fun hc => ?_⟩ (fun hc => ?_) fun b hb => ?_
  · rw [hspare] at hc
    exact hbelow a (h.memory.spare a hc) rfl
  · exact hbelow a (h.inHand a hc).1 rfl
  · refine ⟨⟨⟨Nat.lt_of_lt_of_le hb.1.1 hle, hb.1.2⟩, ?_⟩, hbelow b hb.1⟩
    rw [hspare]
    exact hb.2

/-- **A cell for a variable** is one that nobody has: it was free, or it is the next in line. -/
theorem takeCell (h : Owned c globals others g) (hu : 0 < c.unit)
    (htake : g.memory.takeCell = .ok (a, m)) :
    Owned c globals (a :: others) { g with memory := m } := by
  obtain ⟨hcell, hregular, hle, heq⟩ := Memory.takeCell_spec h.memory hu htake
  rw [Memory.takeCell_eq] at htake
  split at htake
  · rename_i cell rest hs
    cases htake
    have hspare := h.spare
    rw [hs, List.nodup_cons] at hspare
    have hfree : ∀ b, Held c g.memory b → b ≠ a ∧ b ∉ rest := fun b hb => by
      have := hb.2
      rw [hs] at this
      exact List.ne_and_not_mem_of_not_mem_cons this
    refine h.withCell hregular hspare.2 ⟨hcell, hspare.1⟩ (fun hc => ?_) fun b hb => ?_
    · exact (hfree a (h.inHand a hc)).1 rfl
    · exact ⟨⟨hb.1, (hfree b hb).2⟩, (hfree b hb).1⟩
  · exact h.takeNextCell hu htake

/-- **A cell in hand is given back.** -/
theorem freeCell (h : Owned c globals (a :: others) g) :
    Owned c globals others { g with memory := g.memory.freeCell a } := by
  have hnew : a ∉ g.memory.spareCells := (h.inHand a List.mem_cons_self).2
  have heq : g.memory.freeCell a = { g.memory with spareCells := a :: g.memory.spareCells } := by
    unfold Memory.freeCell
    rw [if_neg (by simpa using hnew)]
  have hregular := h.memory.freeCell (h.inHand a List.mem_cons_self).1
  have hnodup := List.nodup_cons.1 h.nodup
  have hheld : ∀ b, Held c g.memory b → b ≠ a → Held c (g.memory.freeCell a) b := by
    intro b hb hne
    rw [heq]
    exact ⟨hb.1, List.not_mem_cons_of_ne_of_not_mem hne hb.2⟩
  have happart : ∀ b, HeldApart c g.memory (a :: others) b →
      HeldApart c (g.memory.freeCell a) others b := by
    intro b hb
    obtain ⟨hne, hother⟩ := List.ne_and_not_mem_of_not_mem_cons hb.2
    exact ⟨hheld b hb.1 hne, hother⟩
  exact
    { h with
      memory := hregular
      spare := by
        rw [heq]
        exact List.nodup_cons.2 ⟨hnew, h.spare⟩
      nodup := hnodup.2
      inHand := fun b hb => hheld b (h.inHand b (List.mem_cons_of_mem _ hb)) fun hba =>
        hnodup.1 (hba ▸ hb)
      functions := fun row f hrow =>
        ⟨(h.functions row f hrow).1, fun b hb => happart b ((h.functions row f hrow).2 b hb)⟩
      seen := fun row b hs => happart b (h.seen row b hs) }

/-- Cells in hand are given back one by one. -/
theorem freeCells (h : Owned c globals (cells ++ others) g) :
    Owned c globals others { g with memory := cells.foldl Memory.freeCell g.memory } := by
  induction cells generalizing g with
  | nil => exact h
  | cons a cells ih => exact ih (g := { g with memory := g.memory.freeCell a }) h.freeCell

end Cells

section Names

/-- A cell in hand is none of a function's. -/
theorem not_mem_cells (h : Owned c globals (a :: others) g) {r : Nat} {f : FunctionInfo}
    (hr : g.Has r f) : a ∉ f.cells := fun ha =>
  ((h.functions r f hr).2 a ha).2 List.mem_cons_self

/-- A cell in hand is none in sight. -/
theorem not_sees (h : Owned c globals (a :: others) g) {i : Nat} : ¬g.symbols.Sees i a :=
  fun hs => (h.seen i a hs).2 List.mem_cons_self

/-- The functions stay when a row that is none of theirs is given a cell. -/
theorem has_setVariable {r : Nat} {f : FunctionInfo} {cell : Option Nat}
    (hf : g.symbols.function? row = none) :
    (g.setMeaning row (.variable cell)).Has r f ↔ g.Has r f := by
  have hfunction : (g.symbols.setMeaning row (.variable cell)).function? r =
      g.symbols.function? r := SymbolTable.function?_setVariable hf
  have hlives : (g.symbols.setMeaning row (.variable cell)).Lives r ↔ g.symbols.Lives r := by
    rw [SymbolTable.Lives, SymbolTable.name?_setMeaning, SymbolTable.Lives]
  unfold Generator.Has Generator.setMeaning
  dsimp only
  rw [hfunction, hlives]

/-- **A row is given a cell** that is no function's. Either nothing in sight has the cell, or the row
is bound to a global name. -/
theorem setVariable {globals' others' : List Nat} (h : Owned c globals others g)
    (hnodup : others'.Nodup) (hothers : ∀ b ∈ others', b ∈ others)
    (ha : HeldApart c g.memory others' a) (hfunctions : ∀ r f, g.Has r f → a ∉ f.cells)
    (hf : g.symbols.function? row = none)
    (hname : c.keywords.contains loopKeyword = true → g.symbols.name? row ≠ some loopKeyword)
    (hold : g.symbols.cell? row = none ∨ g.symbols.scope? row ≠ some Scopes.outermost)
    (hglobals : (globals' = globals ∧ row ∉ globals ∧ ∀ i, ¬g.symbols.Sees i a) ∨
      (globals' = row :: globals ∧ ∃ s k, g.symbols.scope? row = some s ∧ s ≠ Scopes.outermost ∧
        g.symbols.scope? k = some Scopes.outermost ∧ g.symbols.cell? k = some a ∧
          g.symbols.name? k = g.symbols.name? row)) :
    Owned c globals' others' (g.setMeaning row (.variable (some a))) := by
  have hcell : ∀ {i}, row ≠ i →
      (g.symbols.setMeaning row (.variable (some a))).cell? i = g.symbols.cell? i := fun hi =>
    SymbolTable.cell?_setMeaning.trans (if_neg hi)
  have hscope : ∀ {i s}, g.symbols.scope? i = some s →
      (g.symbols.setMeaning row (.variable (some a))).scope? i = some s := fun hi =>
    SymbolTable.scope?_setMeaning.trans hi
  -- the rows of global names keep their cells
  have hkept : ∀ {i b}, (∃ k, g.symbols.scope? k = some Scopes.outermost ∧
      g.symbols.cell? k = some b ∧ g.symbols.name? k = g.symbols.name? i) →
        ∃ k, (g.symbols.setMeaning row (.variable (some a))).scope? k = some Scopes.outermost ∧
          (g.symbols.setMeaning row (.variable (some a))).cell? k = some b ∧
            (g.symbols.setMeaning row (.variable (some a))).name? k =
              (g.symbols.setMeaning row (.variable (some a))).name? i := by
    rintro i b ⟨k, hk, hc, hsame⟩
    have hkr : row ≠ k := by
      rintro rfl
      rcases hold with hold | hold
      · rw [hold] at hc
        cases hc
      · exact hold hk
    refine ⟨k, hscope hk, (hcell hkr).trans hc, ?_⟩
    exact SymbolTable.name?_setMeaning.trans (hsame.trans SymbolTable.name?_setMeaning.symm)
  have happart : ∀ b, HeldApart c g.memory others b → HeldApart c g.memory others' b :=
    fun b hb => ⟨hb.1, fun hc => hb.2 (hothers b hc)⟩
  exact
    { orderly := ⟨h.orderly.nested, fun i s hs => h.orderly.placed i s
        (SymbolTable.scope?_setMeaning.symm.trans hs)⟩
      rooted := h.rooted
      memory := h.memory
      spare := h.spare
      nodup := hnodup
      inHand := fun b hb => h.inHand b (hothers b hb)
      functions := fun r f hr => by
        obtain ⟨hcells, hheld⟩ := h.functions r f ((has_setVariable hf).1 hr)
        exact ⟨hcells, fun b hb => happart b (hheld b hb)⟩
      apart := fun r f r' f' b hr hr' =>
        h.apart r f r' f' b ((has_setVariable hf).1 hr) ((has_setVariable hf).1 hr')
      seen := fun i b hs => by
        rcases SymbolTable.sees_setVariable hs with ⟨-, rfl⟩ | ⟨-, hs⟩
        · exact ha
        · exact happart b (h.seen i b hs)
      parameters := fun i b r f hs hr hb => by
        rw [has_setVariable hf] at hr
        rcases SymbolTable.sees_setVariable hs with ⟨-, rfl⟩ | ⟨-, hs⟩
        · exact absurd hb (hfunctions r f hr)
        · obtain ⟨hp, s, hi, hregion⟩ := h.parameters i b r f hs hr hb
          exact ⟨hp, s, hscope hi, hregion⟩
      distinct := fun i i' b hs hs' hi hi' => by
        rcases hglobals with ⟨rfl, -, hnew⟩ | ⟨rfl, -⟩
        · rcases SymbolTable.sees_setVariable hs with ⟨hir, hba⟩ | ⟨-, hs⟩ <;>
            rcases SymbolTable.sees_setVariable hs' with ⟨hir', hba'⟩ | ⟨-, hs'⟩
          · exact hir.trans hir'.symm
          · exact absurd (hba ▸ hs') (hnew i')
          · exact absurd (hba' ▸ hs) (hnew i)
          · exact h.distinct i i' b hs hs' hi hi'
        · obtain ⟨hir, hi⟩ := List.ne_and_not_mem_of_not_mem_cons hi
          obtain ⟨hir', hi'⟩ := List.ne_and_not_mem_of_not_mem_cons hi'
          have hold := (SymbolTable.sees_setVariable hs).resolve_left fun hc => hir hc.1
          have hold' := (SymbolTable.sees_setVariable hs').resolve_left fun hc => hir' hc.1
          exact h.distinct i i' b hold.2 hold'.2 hi hi'
      globals := fun i hi => by
        by_cases hir : i = row
        · subst hir
          rcases hglobals with ⟨rfl, hnot, -⟩ | ⟨rfl, s, k, hs, hne, hk, hc, hsame⟩
          · exact absurd hi hnot
          · obtain ⟨r, hr, -⟩ := Option.map_eq_some_iff.1 hs
            have hown : (g.symbols.setMeaning i (.variable (some a))).cell? i = some a := by
              rw [SymbolTable.cell?_setMeaning, if_pos rfl, SymbolTable.meaning?, hr]
              rfl
            refine ⟨⟨a, hown⟩, ⟨s, hscope hs, hne⟩, fun b hb => ?_⟩
            obtain rfl : a = b := Option.some.inj (hown.symm.trans hb.1)
            exact hkept ⟨k, hk, hc, hsame⟩
        · have hi' : i ∈ globals := by
            rcases hglobals with ⟨rfl, -⟩ | ⟨rfl, -⟩
            · exact hi
            · exact (List.mem_cons.1 hi).resolve_left hir
          obtain ⟨⟨b, hb⟩, ⟨s, hs, hne⟩, hsees⟩ := h.globals i hi'
          refine ⟨⟨b, (hcell (Ne.symm hir)).trans hb⟩, ⟨s, hscope hs, hne⟩, fun b' hb' => ?_⟩
          have hold' := (SymbolTable.sees_setVariable hb').resolve_left fun hc => hir hc.1
          exact hkept (hsees b' hold'.2)
      keyword := fun hk i hi => by
        have hi' : g.symbols.name? i = some loopKeyword :=
          SymbolTable.name?_setMeaning.symm.trans hi
        have hir : row ≠ i := fun heq => hname hk (heq ▸ hi')
        exact (hcell hir).trans (h.keyword hk i hi')
      bodies := fun s i hs => by
        obtain ⟨s', hi, hlt⟩ := h.bodies s i hs
        exact ⟨s', hscope hi, hlt⟩ }

/-- **A name is bound to a cell in hand.** Its row has had no cell, or not one that global names are
bound to. -/
theorem bind (h : Owned c globals (a :: others) g) (hf : g.symbols.function? row = none)
    (hname : c.keywords.contains loopKeyword = true → g.symbols.name? row ≠ some loopKeyword)
    (hold : g.symbols.cell? row = none ∨ g.symbols.scope? row ≠ some Scopes.outermost)
    (hglobal : row ∉ globals) : Owned c globals others (g.setMeaning row (.variable (some a))) := by
  have hnodup := List.nodup_cons.1 h.nodup
  refine h.setVariable hnodup.2 (fun b hb => List.mem_cons_of_mem _ hb)
    ⟨h.inHand a List.mem_cons_self, hnodup.1⟩ (fun r f hr => h.not_mem_cells hr) hf hname hold ?_
  exact .inl ⟨rfl, hglobal, fun i => h.not_sees⟩

/-- **A name is bound to a global one:** its row stands for the cell of that from now on. -/
theorem bindGlobal (h : Owned c globals others g) {k s : Nat} (hsees : g.symbols.Sees k a)
    (hk : g.symbols.scope? k = some Scopes.outermost) (hrow : g.symbols.scope? row = some s)
    (hne : s ≠ Scopes.outermost) (hname : g.symbols.name? k = g.symbols.name? row)
    (hf : g.symbols.function? row = none) :
    Owned c (row :: globals) others (g.setMeaning row (.variable (some a))) := by
  have houter : g.symbols.scope? row ≠ some Scopes.outermost := fun hc =>
    hne (Option.some.inj (hrow.symm.trans hc))
  refine h.setVariable h.nodup (fun _ hb => hb) (h.seen k a hsees) ?_ hf (fun hk' hrow' => ?_)
    (.inr houter) (.inr ⟨rfl, s, k, hrow, hne, hk, hsees.1, hname⟩)
  · -- the cell of a global name is no parameter's
    intro r f hr ha
    obtain ⟨-, s', hs', hregion⟩ := h.parameters k a r f hsees hr ha
    obtain rfl := Option.some.inj (hk.symm.trans hs')
    have hprogram := h.rooted.at.region?
    rw [hregion] at hprogram
    cases hprogram
  · have hnone := h.keyword hk' k (hname.trans hrow')
    rw [hsees.1] at hnone
    cases hnone

end Names

section Functions

/-- **Cells are let go of,** by no function and no variable that is left. -/
theorem withOthers (h : Owned c globals others g) (hnodup : (cells ++ others).Nodup)
    (hheld : ∀ a ∈ cells, Held c g.memory a)
    (hfunctions : ∀ r f, g.Has r f → ∀ a ∈ f.cells, a ∉ cells)
    (hseen : ∀ i a, g.symbols.Sees i a → a ∉ cells) : Owned c globals (cells ++ others) g :=
  { h with
    nodup := hnodup
    inHand := fun a ha => (List.mem_append.1 ha).elim (hheld a) (h.inHand a)
    functions := fun r f hr => by
      obtain ⟨hcells, hf⟩ := h.functions r f hr
      refine ⟨hcells, fun a ha => ⟨(hf a ha).1, fun hc => ?_⟩⟩
      exact (List.mem_append.1 hc).elim (hfunctions r f hr a ha) (hf a ha).2
    seen := fun i a hs => by
      refine ⟨(h.seen i a hs).1, fun hc => ?_⟩
      exact (List.mem_append.1 hc).elim (hseen i a hs) (h.seen i a hs).2 }

/-- **A function is retired** while its body is out of sight. -/
theorem retire (h : Owned c globals others g) {f : FunctionInfo}
    (hf : g.symbols.function? row = some f) (hlives : g.symbols.Lives row)
    (hheaders : ∀ d ∈ g.definitions, d.header = none)
    (hbody : ∀ s, g.symbols.scopes.region? s = some (.body row) →
      s ∉ g.symbols.scopes.enclosing g.currentScope) :
    Owned c globals (f.cells ++ others) { g with symbols := g.symbols.retire row } := by
  have hrow : g.Has row f := .inl ⟨hf, hlives⟩
  -- what is left are the other functions
  have hhas : ∀ r f', Generator.Has { g with symbols := g.symbols.retire row } r f' →
      r ≠ row ∧ g.Has r f' := by
    rintro r f' (⟨hfunction, hlives'⟩ | ⟨d, hd, rfl, hheader⟩)
    · have hne : r ≠ row := fun heq => SymbolTable.not_lives_retire _ _ (heq ▸ hlives')
      rw [SymbolTable.function?_retire] at hfunction
      exact ⟨hne, .inl ⟨hfunction, (SymbolTable.lives_retire_ne (Ne.symm hne)).1 hlives'⟩⟩
    · rw [hheaders d hd] at hheader
      cases hheader
  have hfades : g.symbols.Fades (g.symbols.retire row) :=
    SymbolTable.fades_retire h.orderly h.rooted (SymbolTable.cell?_of_function? hf)
  have h' : Owned c globals others { g with symbols := g.symbols.retire row } :=
    h.fades hfades h.memory rfl rfl fun r f' hr => ⟨f', (hhas r f' hr).2, rfl, rfl⟩
  obtain ⟨hnodup, hheld⟩ := h.functions row f hrow
  refine h'.withOthers ?_ (fun a ha => (hheld a ha).1) (fun r f' hr a ha hc => ?_) fun i a hs hc => ?_
  · exact List.nodup_append.2 ⟨hnodup, h.nodup, fun a ha b hb hab => (hheld a ha).2 (hab ▸ hb)⟩
  · exact (hhas r f' hr).1 (h.apart r f' row f a (hhas r f' hr).2 hrow ha hc)
  · have hs := hfades.sees i a hs
    obtain ⟨-, s, hscope, hregion⟩ := h.parameters i a row f hs hrow hc
    obtain ⟨-, s', hscope', hmem⟩ := hs
    obtain rfl := Option.some.inj (hscope.symm.trans hscope')
    exact hbody s hregion hmem

/-- **A definition begins** with two cells in hand. -/
theorem openHeader {result returnCell start : Nat} {d : Definition}
    (h : Owned c globals (returnCell :: result :: others) g)
    (hd : d.header = some (.fresh result returnCell start)) :
    Owned c globals others { g with definitions := d :: g.definitions } := by
  have hnodup := h.nodup
  simp only [List.nodup_cons, List.mem_cons, not_or] at hnodup
  obtain ⟨⟨hne, hreturn⟩, hresult, hothers⟩ := hnodup
  have hcells : ∀ a, a ∈ (FunctionInfo.fresh result returnCell start).cells ↔
      a = result ∨ a = returnCell := by
    simp [FunctionInfo.cells, FunctionInfo.fresh]
  have hinHand : ∀ a ∈ (FunctionInfo.fresh result returnCell start).cells,
      a ∈ returnCell :: result :: others := by
    intro a ha
    rcases (hcells a).1 ha with rfl | rfl
    · exact List.mem_cons_of_mem _ List.mem_cons_self
    · exact List.mem_cons_self
  have happart : ∀ a, HeldApart c g.memory (returnCell :: result :: others) a →
      HeldApart c g.memory others a := fun a ha =>
    ⟨ha.1, fun hc => ha.2 (List.mem_cons_of_mem _ (List.mem_cons_of_mem _ hc))⟩
  have hhas : ∀ r f, Generator.Has { g with definitions := d :: g.definitions } r f →
      g.Has r f ∨ r = d.row ∧ f = .fresh result returnCell start := by
    rintro r f (hr | ⟨d', hd', rfl, hheader⟩)
    · exact .inl (.inl hr)
    · rcases List.mem_cons.1 hd' with rfl | hd'
      · rw [hd] at hheader
        exact .inr ⟨rfl, (Option.some.inj hheader).symm⟩
      · exact .inl (.inr ⟨d', hd', rfl, hheader⟩)
  exact
    { h with
      nodup := hothers
      inHand := fun a ha => h.inHand a (List.mem_cons_of_mem _ (List.mem_cons_of_mem _ ha))
      functions := fun r f hr => by
        rcases hhas r f hr with hr | ⟨-, rfl⟩
        · obtain ⟨hnodup, hheld⟩ := h.functions r f hr
          exact ⟨hnodup, fun a ha => happart a (hheld a ha)⟩
        · refine ⟨?_, fun a ha => ⟨h.inHand a (hinHand a ha), ?_⟩⟩
          · simpa [FunctionInfo.cells, FunctionInfo.fresh] using Ne.symm hne
          · rcases (hcells a).1 ha with rfl | rfl
            · exact hresult
            · exact hreturn
      apart := fun r f r' f' a hr hr' ha ha' => by
        rcases hhas r f hr with hr | ⟨hrow, rfl⟩ <;> rcases hhas r' f' hr' with hr' | ⟨hrow', rfl⟩
        · exact h.apart r f r' f' a hr hr' ha ha'
        · exact absurd (hinHand a ha') ((h.functions r f hr).2 a ha).2
        · exact absurd (hinHand a ha) ((h.functions r' f' hr').2 a ha').2
        · exact hrow.trans hrow'.symm
      seen := fun i a hs => happart a (h.seen i a hs)
      parameters := fun i a r f hs hr ha => by
        rcases hhas r f hr with hr | ⟨-, rfl⟩
        · exact h.parameters i a r f hs hr ha
        · exact absurd (hinHand a ha) (h.seen i a hs).2 }

/-- **A parameter gets its cell,** which is its function's and that of a row of the body. -/
theorem addParameter (h : Owned c globals (a :: others) g) {d : Definition}
    {rest : List Definition} {info : FunctionInfo} (hd : g.definitions = d :: rest)
    (hheader : d.header = some info) (hf : g.symbols.function? row = none)
    (hname : c.keywords.contains loopKeyword = true → g.symbols.name? row ≠ some loopKeyword)
    (hrow : g.symbols.scope? row = some g.currentScope)
    (hregion : g.symbols.scopes.region? g.currentScope = some (.body d.row))
    (hglobal : row ∉ globals) :
    Owned c globals others ((g.setMeaning row (.variable (some a))).mapDefinition fun d =>
      { d with header := d.header.map fun info => { info with params := info.params ++ [a] } }) := by
  have houter : g.symbols.scope? row ≠ some Scopes.outermost := by
    intro hc
    have hcurrent : g.currentScope = Scopes.outermost := Option.some.inj (hrow.symm.trans hc)
    rw [hcurrent, h.rooted.at.region?] at hregion
    cases hregion
  have h' := h.bind hf hname (.inr houter) hglobal
  have hnew : ∀ r f, (g.setMeaning row (.variable (some a))).Has r f → a ∉ f.cells :=
    fun r f hr => h.not_mem_cells ((has_setVariable hf).1 hr)
  have hwithCell : ({ info with params := info.params ++ [a] } : FunctionInfo).cells.Perm
      (a :: info.cells) := by
    simp only [FunctionInfo.cells, List.append_assoc, List.singleton_append]
    exact List.perm_middle
  have hdefs : ((g.setMeaning row (.variable (some a))).mapDefinition fun d =>
      { d with header := d.header.map fun info =>
        { info with params := info.params ++ [a] } }).definitions =
      { d with header := some { info with params := info.params ++ [a] } } :: rest := by
    simp only [Generator.mapDefinition, Generator.setMeaning, hd, hheader, Option.map_some]
  have hown : (g.setMeaning row (.variable (some a))).Has d.row info :=
    .inr ⟨d, by simp only [Generator.setMeaning, hd]; exact List.mem_cons_self, rfl, hheader⟩
  have hhas : ∀ r f, ((g.setMeaning row (.variable (some a))).mapDefinition fun d =>
      { d with header := d.header.map fun info =>
        { info with params := info.params ++ [a] } }).Has r f →
      (g.setMeaning row (.variable (some a))).Has r f ∨
        r = d.row ∧ f = { info with params := info.params ++ [a] } := by
    rintro r f (hr | ⟨d', hd', rfl, hheader'⟩)
    · exact .inl (.inl hr)
    · rw [hdefs] at hd'
      rcases List.mem_cons.1 hd' with rfl | hd'
      · exact .inr ⟨rfl, (Option.some.inj hheader').symm⟩
      · refine .inl (.inr ⟨d', ?_, rfl, hheader'⟩)
        simp only [Generator.setMeaning, hd]
        exact List.mem_cons_of_mem _ hd'
  have hmine : (g.setMeaning row (.variable (some a))).symbols.Sees row a := by
    obtain ⟨r, hr, -⟩ := Option.map_eq_some_iff.1 hrow
    refine ⟨?_, g.currentScope, SymbolTable.scope?_setMeaning.trans hrow,
      Scopes.mem_enclosing_self h.orderly.nested.current⟩
    refine (SymbolTable.cell?_setMeaning.trans (if_pos rfl)).trans ?_
    rw [SymbolTable.meaning?, hr]
    rfl
  exact
    { h' with
      functions := fun r f hr => by
        rcases hhas r f hr with hr | ⟨rfl, rfl⟩
        · exact h'.functions r f hr
        · obtain ⟨hnodup, hheld⟩ := h'.functions d.row info hown
          refine ⟨hwithCell.nodup_iff.2 (List.nodup_cons.2 ⟨hnew d.row info hown, hnodup⟩),
            fun b hb => ?_⟩
          rcases List.mem_cons.1 (hwithCell.mem_iff.1 hb) with rfl | hb
          · exact h'.seen row b hmine
          · exact hheld b hb
      apart := fun r f r' f' b hr hr' hb hb' => by
        rcases hhas r f hr with hr | ⟨rfl, rfl⟩ <;> rcases hhas r' f' hr' with hr' | ⟨rfl, rfl⟩
        · exact h'.apart r f r' f' b hr hr' hb hb'
        · rcases List.mem_cons.1 (hwithCell.mem_iff.1 hb') with rfl | hb'
          · exact absurd hb (hnew r f hr)
          · exact h'.apart r f d.row info b hr hown hb hb'
        · rcases List.mem_cons.1 (hwithCell.mem_iff.1 hb) with rfl | hb
          · exact absurd hb' (hnew r' f' hr')
          · exact h'.apart d.row info r' f' b hown hr' hb hb'
        · rfl
      parameters := fun i b r f hs hr hb => by
        rcases hhas r f hr with hr | ⟨rfl, rfl⟩
        · exact h'.parameters i b r f hs hr hb
        · rcases List.mem_cons.1 (hwithCell.mem_iff.1 hb) with rfl | hb
          · refine ⟨List.mem_append_right _ List.mem_cons_self, g.currentScope, ?_, hregion⟩
            rcases SymbolTable.sees_setVariable hs with ⟨rfl, -⟩ | ⟨-, hs⟩
            · exact SymbolTable.scope?_setMeaning.trans hrow
            · exact absurd hs h.not_sees
          · obtain ⟨hp, hbody⟩ := h'.parameters i b d.row info hs hown hb
            exact ⟨List.mem_append_left _ hp, hbody⟩ }

end Functions

end Owned

end OnePass.Emission
