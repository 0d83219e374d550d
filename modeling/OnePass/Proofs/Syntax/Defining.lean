import OnePass.Proofs.Syntax.Passing

/-!
# What a definition leaves behind

A definition opens a scope and a function, compiles its body in them, and goes back. No
jump of the body waits for a loop outside, as the body is no part of one.

* `Opens`: a state in which a body can be compiled. `Opens.fit`: it is fit for that.
* `opens_header`: the marks before the body lead to such a state.
* `Opens.passes`: the body and the marks behind it pass.
-/

namespace OnePass.Syntax

open OnePass.Derivation Emission Names Target
open Grammar (Action Mark)

/-- **A state in which a body can be compiled:** its function is on a row, and its scope and its
definition are open. All else is as before the definition. -/
structure Opens (E : Setting) (f : FunctionInfo) (row : Nat) (g g' : Generator) : Prop where
  table : Keeps E g.symbols g'.symbols
  scope : g'.symbols.scopes.At g'.currentScope (.body row) (some g.currentScope)
  records : ∀ r, E.Records g.symbols r → E.Records g'.symbols r
  definitions : g'.definitions = ⟨row, g'.currentScope, g.programNext, none, 0, false⟩ ::
    g.definitions
  stack : g'.stack = g.stack
  function : g'.symbols.function? row = some f
  place : g'.symbols.scope? row = some g.currentScope
  inner : g.currentScope < g'.currentScope
  bare : f.bare = f
  start : f.start = g.programNext + 1
  safe : ∀ i, (g'.symbols.function? i).isSome →
    (g.symbols.function? i).isSome ∨ E.Safe g'.symbols i
  made : ∀ i f', g'.symbols.function? i = some f' →
    g.symbols.function? i = some f' ∨ (i = row ∧ f' = f)
  program : g'.memory.program = g.memory.program.push none
  strays : g'.strays = g.strays

section Opens

variable {E : Setting} {f : FunctionInfo} {row : Nat} {g g' g₁ g₂ : Generator} {returns : Bool}
  {bodies : List Body} {strays : List SemanticFault} {f? : Option FunctionInfo} {inLoop : Bool}

/-- **A body can be compiled** in a state that is opened for it. -/
theorem Opens.fit (h : Opens E f row g g') (hg : Fit E f? inLoop g) : Fit E (some f) false g' where
  rooted := h.table.rooted hg.rooted
  records := by
    obtain ⟨r, hr⟩ := hg.records
    exact ⟨r, h.records r hr⟩
  safe i hi := by
    rcases h.safe i hi with hi | hi
    · exact h.table.safe i (hg.safe i hi)
    · exact hi
  scope := ⟨_, _, h.scope, rfl⟩
  reserved hc := by cases hc
  definition := ⟨_, _, f, h.definitions, rfl, h.function, rfl⟩

/-- The end of a body, with its jump around filled. -/
def closedBody (p : Program) (around : Nat) (f : FunctionInfo) (returns : Bool) : Program :=
  let q := if returns then p else
    (p.push (some (.assign (.immediate 0) (.direct f.result)))).push
      (some (.jumpThrough f.returnCell))
  settled q around (.jump q.size)

theorem closedBody_spec {p q : Program} (f : FunctionInfo) (returns : Bool) (h : Lengthens .none (p.push none) q) :
    let r := closedBody q p.size f returns
    Lengthens .none p r ∧ Holds r p.size (.jump r.size) ∧
      if returns then r.size = q.size else
        Holds r q.size (.assign (.immediate 0) (.direct f.result)) ∧
          Holds r (q.size + 1) (.jumpThrough f.returnCell) ∧ r.size = q.size + 2 := by
  intro r
  cases hreturns : returns with
  | true =>
    have hr : r = settled q p.size (.jump q.size) := by simp [r, closedBody, hreturns]
    have hsize : r.size = q.size := by rw [hr, size_settled]
    rw [hsize]
    have hheld := h.hold (.jump q.size)
    rw [← hr] at hheld
    exact ⟨hheld.1, hheld.2, rfl⟩
  | false =>
    have hr : r = settled ((q.push (some (.assign (.immediate 0) (.direct f.result)))).push
        (some (.jumpThrough f.returnCell))) p.size (.jump (q.size + 2)) := by
      simp [r, closedBody, hreturns]
    have hsize : r.size = q.size + 2 := by
      rw [hr, size_settled, Array.size_push, Array.size_push]
    rw [hsize]
    have h' := (h.trans (lengthens_push q (.assign (.immediate 0) (.direct f.result)))).trans
      (lengthens_push _ (.jumpThrough f.returnCell))
    rw [Waiting.append_none, Waiting.append_none] at h'
    have hheld := h'.hold (.jump (q.size + 2))
    rw [← hr] at hheld
    refine ⟨hheld.1, hheld.2, ?_⟩
    simp only [Bool.false_eq_true, if_false]
    have hlt : p.size < q.size := by
      have hle := h.size
      rw [Array.size_push] at hle
      exact hle
    refine ⟨?_, ?_, trivial⟩
    · rw [Holds, hr, getElem?_settled, if_neg fun hc => by omega, Array.getElem?_push,
        if_neg (by simp), Array.getElem?_push, if_pos rfl]
    · rw [Holds, hr, getElem?_settled, if_neg fun hc => by omega, Array.getElem?_push,
        if_pos (by simp)]

/-- **The end of a definition** goes back to where it began, with its functions made. -/
theorem Opens.ends_endFunction (h : Opens E f row g g₁) (hg : Fit E f? inLoop g)
    (hstarts : ∀ i f₀, g.symbols.function? i = some f₀ → f₀.start ≤ g.programNext)
    (hblock : Passes E returns .none bodies strays g₁ g₂) :
    Ends endFunction g₂ fun _ g₃ =>
      Passes E false .none (⟨f, g₃.programNext⟩ :: bodies) strays g g₃ ∧
        g₃.memory.program = closedBody g₂.memory.program g.programNext f returns ∧
        ∀ info, g₃.symbols.Visible info → info.start ≤ f.start := by
  obtain ⟨f', hf', hbare⟩ := hblock.table.functions row f h.function
  have hdefs : g₂.definitions = ⟨row, g₁.currentScope, g.programNext, none, 0, returns⟩ ::
      g.definitions := by
    rw [hblock.definitions, h.definitions]
    simp [noting, Definition.noting]
  refine (ends_endFunction_eq hdefs rfl hf').mono ?_
  rintro _ g₃ ⟨g', hg', rfl⟩
  -- what the return at the end needs of the function has not changed
  have hresult : f'.bare.result = f.bare.result := congrArg FunctionInfo.result hbare
  have hreturn : f'.bare.returnCell = f.bare.returnCell := congrArg FunctionInfo.returnCell hbare
  rw [FunctionInfo.result_bare, FunctionInfo.result_bare] at hresult
  rw [FunctionInfo.returnCell_bare, FunctionInfo.returnCell_bare] at hreturn
  have hended : g'.symbols = g₂.symbols ∧ g'.definitions = g.definitions ∧ g'.stack = g₂.stack ∧
      g'.strays = g₂.strays ∧ settled g'.memory.program g.programNext (.jump g'.programNext) =
        closedBody g₂.memory.program g.programNext f returns := by
    rw [hg', Generator.ended]
    cases returns with
    | true => exact ⟨rfl, rfl, rfl, rfl, rfl⟩
    | false =>
      simp only [Bool.false_eq_true, if_false, Generator.leaving, hresult, hreturn]
      exact ⟨rfl, rfl, rfl, rfl, rfl⟩
  obtain ⟨hsymbols, hdefinitions, hstack, hstrays, hprogram⟩ := hended
  have hat := hblock.table.scopes _ _ _ h.scope
  rw [← hblock.current] at hat
  have hlengthens := hblock.program
  rw [h.program] at hlengthens
  have hleave : (g₂.symbols.leaveScope).currentScope = g.currentScope :=
    Scopes.current_leave hat _
  refine ⟨?_, hprogram, ?_⟩
  · exact
    { table := by
        have hleave := (h.table.trans hblock.table).trans (keeps_leaveScope g₂.symbols)
        change Keeps E g.symbols g'.symbols.leaveScope
        rw [hsymbols]
        exact hleave
      current := by
        change g'.symbols.leaveScope.currentScope = _
        rw [hsymbols]
        exact hleave
      records := fun r hr => by
        rw [awaiting_none]
        have hr' := hblock.records r (h.records r hr)
        rw [awaiting_none] at hr'
        change E.Records g'.symbols.leaveScope r
        rw [hsymbols]
        refine records_of_loops? (fun _ => SymbolTable.loops?_leaveScope ?_) r hr'
        exact ((h.fit hg).passes hblock).rooted
      definitions := by
        rw [noting_false]
        exact hdefinitions
      stack := hstack.trans (hblock.stack.trans h.stack)
      safe := fun i hi => by
        have hi' : (g₂.symbols.function? i).isSome := by
          rw [← hsymbols]
          exact hi
        have hsafe : E.Safe g₂.symbols i → E.Safe g'.symbols.leaveScope i := by
          rw [hsymbols]
          exact fun h => h
        rcases hblock.safe i hi' with hi' | hi'
        · exact (h.safe i hi').imp_right fun hs => hsafe (hblock.table.safe i hs)
        · exact .inr (hsafe hi')
      made := fun i f₀ hf₀ => by
        have hf₀' : g₂.symbols.function? i = some f₀ := by
          rw [← hsymbols]
          exact hf₀
        have hplaces : ∀ s, g₂.symbols.scope? i = some s →
            g'.symbols.leaveScope.scope? i = some s := by
          rw [hsymbols]
          exact fun _ hs => hs
        rcases hblock.made i f₀ hf₀' with ⟨f₁, hf₁, hbare₁⟩ | ⟨⟨b, hb, hfun⟩, s, hs, hle⟩
        · rcases h.made i f₁ hf₁ with hold | ⟨rfl, rfl⟩
          · exact .inl ⟨f₁, hold, hbare₁⟩
          · exact .inr ⟨⟨_, List.mem_cons_self, h.bare.symm.trans hbare₁⟩, _,
              hplaces _ (hblock.table.places _ _ h.place), Nat.le_refl _⟩
        · exact .inr ⟨⟨b, List.mem_cons_of_mem _ hb, hfun⟩, s, hplaces s hs,
            Nat.le_trans (Nat.le_of_lt h.inner) hle⟩
      program := by
        change Lengthens .none _ (settled g'.memory.program g.programNext (.jump g'.programNext))
        rw [hprogram]
        exact (closedBody_spec f returns hlengthens).1
      strays := by
        have hsame : g'.strays = g.strays ++ strays := by rw [hstrays, hblock.strays, h.strays]
        exact hsame }
  · rintro info ⟨i, s, hinfo, hs, hmem⟩
    change g'.symbols.leaveScope.function? i = some info at hinfo
    change g'.symbols.leaveScope.scope? i = some s at hs
    change s ∈ g'.symbols.leaveScope.scopes.enclosing g'.symbols.leaveScope.currentScope at hmem
    rw [hsymbols] at hinfo hs hmem
    rw [hleave] at hmem
    rcases hblock.made i info hinfo with ⟨f₁, hf₁, hbare₁⟩ | ⟨-, s', hs', hle⟩
    · have hstart : f₁.bare.start = info.bare.start := congrArg FunctionInfo.start hbare₁
      rw [FunctionInfo.start_bare, FunctionInfo.start_bare] at hstart
      rw [← hstart]
      rcases h.made i f₁ hf₁ with hold | ⟨-, rfl⟩
      · have hle := hstarts i f₁ hold
        rw [h.start]
        omega
      · exact Nat.le_refl _
    · -- what the body defines belongs to a scope that has been left
      obtain rfl : s' = s := Option.some.inj (hs'.symm.trans hs)
      have hle' := Scopes.le_of_mem_enclosing hmem
      have hlt := h.inner
      omega

end Opens

/-- **Functions whose place is taken** are renamed, and nothing else is noticed. -/
theorem ends_retireRivals_passes {E : Setting} {g : Generator} {f? : Option FunctionInfo}
    {inLoop : Bool} {line : Nat} {lexeme : String} (hg : Fit E f? inLoop g) :
    Ends (perform .checkOverload lexeme line) g fun _ g' =>
      Passes E false .none [] [] g g' ∧ g'.memory.program = g.memory.program ∧
        ∀ info, g'.symbols.Visible info → g.symbols.Visible info := by
  intro u g' hg'
  have hstrays := strays_perform (by simp) (by simp) lexeme line g u g' hg'
  obtain ⟨m, t, errors, last, hm, rfl, hsteady, hscopes, hplaces, hfunctions⟩ :=
    ends_retireRivals_eq hg.rooted hg.safe u g' hg'
  refine ⟨?_, hm, fun _ hv => (SymbolTable.Longer.of_eq hplaces).visible hfunctions hscopes hv⟩
  exact
    { table := .of_steady hsteady hscopes (fun i _ hs => (hplaces i).trans hs) hfunctions
      current := hsteady.current
      records := fun r hr => by
        rw [awaiting_none]
        exact hsteady.records r hr
      definitions := by rw [noting_false]
      stack := rfl
      safe := fun i hi => .inl (by rwa [← hfunctions])
      made := fun i f hf => .inl ⟨f, by rwa [← hfunctions], rfl⟩
      program := by
        rw [show ({ g with symbols := t, memory := m, errors := errors, lastDefined := last } :
          Generator).memory.program = g.memory.program from hm]
        exact lengthens_refl _
      strays := by rw [hstrays, List.append_nil] }

/-- **A state in which parameters are read:** the function is still in the header of its
definition. -/
structure Heads (E : Setting) (f : FunctionInfo) (row : Nat) (g g' : Generator) : Prop where
  table : Keeps E g.symbols g'.symbols
  scope : g'.symbols.scopes.At g'.currentScope (.body row) (some g.currentScope)
  records : ∀ r, E.Records g.symbols r → E.Records g'.symbols r
  definitions : g'.definitions = ⟨row, g'.currentScope, g.programNext, some f, 0, false⟩ ::
    g.definitions
  inner : g.currentScope < g'.currentScope
  stack : g'.stack = g.stack
  functions : ∀ i, g'.symbols.function? i = g.symbols.function? i
  place : g'.symbols.scope? row = some g.currentScope
  safe : E.Safe g'.symbols row
  program : g'.memory.program = g.memory.program.push none
  strays : g'.strays = g.strays

section Heads

variable {E : Setting} {f : FunctionInfo} {row : Nat} {g g₁ g₂ : Generator}
  {f? : Option FunctionInfo} {inLoop : Bool} {name : String} {line : Nat}

theorem heads_startFunction (hg : Fit E f? inLoop g) (hn : E.Bindable name) :
    Ends (perform .enterFunction name line) g fun _ g' =>
      ∃ f row, f.bare = f ∧ Heads E f row g g' := by
  intro u g' hg'
  have hstrays := strays_perform (by simp) (by simp) name line g u g' hg'
  obtain ⟨result, returnCell, m, row, t, hm, ht, rfl⟩ := ends_startFunction_eq u g' hg'
  obtain ⟨hsteady, hsafe⟩ := steady_rowFor hg.rooted hn .identifier (· = .unused)
  have hscopes := SymbolTable.scopes_rowFor g.symbols name .identifier (· = .unused)
  have hlonger := SymbolTable.longer_rowFor g.symbols name .identifier (· = .unused)
  have hplace := SymbolTable.scope?_rowFor g.symbols name .identifier (· = .unused)
  have hname := (SymbolTable.rowFor_spec g.symbols name .identifier (· = .unused)).1
  have hfunctions : ∀ i, (g.symbols.rowFor name .identifier (· = .unused)).2.function? i =
      g.symbols.function? i := fun _ => SymbolTable.function?_rowFor _
  rw [← ht] at hsteady hsafe hscopes hlonger hplace hname hfunctions
  have hroot : t.scopes.Rooted := hscopes ▸ hg.rooted
  refine ⟨.fresh result returnCell (g.programNext + 1), row, rfl, ?_⟩
  exact
    { table := (Keeps.of_steady hsteady hscopes hlonger.places hfunctions).trans (keeps_enterScope t _)
      scope := by
        have hcurrent : g.currentScope = t.scopes.current := (congrArg Scopes.current hscopes).symm
        rw [hcurrent]
        exact Scopes.at_enter t.scopes (.body row) t.rows.size
      records := fun r hr => records_of_loops? (fun _ => SymbolTable.loops?_enterScope hroot _) r
        (hsteady.records r hr)
      definitions := rfl
      stack := rfl
      functions := hfunctions
      inner := by
        obtain ⟨region, parent, ⟨scope, hscope, -⟩, -⟩ := hg.scope
        have hlt := (Array.getElem?_eq_some_iff.1 hscope).1
        exact Nat.lt_of_lt_of_eq hlt (congrArg (·.all.size) hscopes).symm
      place := hplace
      safe := hsafe
      program := hm
      strays := hstrays }

/-- Names that are bound between the parameters do not matter. -/
theorem Heads.quiet (h : Heads E f row g g₁) (hg : Fit E f? inLoop g) (hq : Quiet E g₁ g₂)
    (hstack : g₂.stack = g₁.stack) (hprogram : g₂.memory.program = g₁.memory.program)
    (hstrays : g₂.strays = g₁.strays) : Heads E f row g g₂ := by
  have hroot := h.table.rooted hg.rooted
  have hrecords : ∃ r, E.Records g₁.symbols r := by
    obtain ⟨r, hr⟩ := hg.records
    exact ⟨r, h.records r hr⟩
  have hcurrent : g₂.currentScope = g₁.currentScope := congrArg Scopes.current hq.scopes
  have hkeeps := hq.keeps hroot hrecords
  exact
    { table := h.table.trans hkeeps
      scope := by
        rw [hcurrent]
        exact hkeeps.scopes _ _ _ h.scope
      records := fun r hr => (hq.steady hroot hrecords).records r (h.records r hr)
      definitions := by rw [hq.definitions, h.definitions, hcurrent]
      inner := hcurrent ▸ h.inner
      stack := hstack.trans h.stack
      functions := fun i => (hq.functions i).trans (h.functions i)
      place := hkeeps.places row _ h.place
      safe := hkeeps.safe row h.safe
      program := hprogram.trans h.program
      strays := hstrays.trans h.strays }

/-- **A parameter** goes into the header. -/
theorem Heads.addParameter (h : Heads E f row g g₁) (hg : Fit E f? inLoop g)
    (hn : E.Bindable name) : Ends (perform .param name line) g₁ fun _ g₂ =>
      ∃ cell, Heads E { f with params := f.params ++ [cell] } row g g₂ := by
  intro u g₂ hg₂
  have hstrays := strays_perform (by simp) (by simp) name line g₁ u g₂ hg₂
  obtain ⟨cell, g', hq, hstack, hprogram, rfl⟩ := ends_addParameter_eq hn u g₂ hg₂
  have h' := h.quiet hg hq hstack hprogram hstrays
  refine ⟨cell, { h' with definitions := ?_ }⟩
  rw [Generator.mapDefinition, h'.definitions]
  rfl

/-- **The function is published,** and its body can be compiled. -/
theorem Heads.publish (h : Heads E f row g g₁) (hg : Fit E f? inLoop g) (hbare : f.bare = f)
    {lexeme : String} : Ends (perform .paramsDone lexeme line) g₁ fun _ g₂ =>
      Opens E { f with start := g.programNext + 1 } row g g₂ := by
  intro u g₂ hg₂
  have hstrays := strays_perform (by simp) (by simp) lexeme line g₁ u g₂ hg₂
  obtain ⟨hnone, rfl⟩ := ends_publish_eq h.definitions rfl ⟨_, h.place⟩ u g₂ hg₂
  have hnext : g₁.programNext = g.programNext + 1 := by
    rw [Generator.programNext, Memory.programNext, h.program, Array.size_push]
    rfl
  rw [hnext] at hstrays hg₂ ⊢
  have hroot := h.table.rooted hg.rooted
  have hsteady := steady_setMeaning (m := .function { f with start := g.programNext + 1 }) hroot h.safe
  have hfunction : (g₁.symbols.setMeaning row
      (.function { f with start := g.programNext + 1 })).function? row =
        some { f with start := g.programNext + 1 } := by
    obtain ⟨r, hr, -⟩ := Option.map_eq_some_iff.1 h.place
    have hm : g₁.symbols.meaning? row = some r.meaning := by
      rw [SymbolTable.meaning?, hr]
      rfl
    rw [SymbolTable.function?, SymbolTable.meaning?_setMeaning, if_pos rfl, hm]
    rfl
  have hothers : ∀ i, row ≠ i → (g₁.symbols.setMeaning row
      (.function { f with start := g.programNext + 1 })).function? i = g.symbols.function? i := by
    intro i hi
    rw [SymbolTable.function?, SymbolTable.meaning?_setMeaning, if_neg hi, ← SymbolTable.function?]
    exact h.functions i
  exact
    { table :=
        { rooted := h.table.rooted
          scopes := h.table.scopes
          places := fun i s hs => SymbolTable.scope?_setMeaning.trans (h.table.places i s hs)
          safe := fun i hi => hsteady.safe i (h.table.safe i hi)
          functions := fun i f₀ hf₀ => by
            have hi : row ≠ i := by
              rintro rfl
              rw [h.functions, hf₀] at hnone
              cases hnone
            exact ⟨f₀, (hothers i hi).trans hf₀, rfl⟩ }
      scope := h.scope
      records := fun r hr => hsteady.records r (h.records r hr)
      definitions := rfl
      stack := h.stack
      function := hfunction
      place := SymbolTable.scope?_setMeaning.trans h.place
      inner := h.inner
      bare := by
        rw [FunctionInfo.bare] at hbare ⊢
        exact congrArg (fun f : FunctionInfo => { f with start := g.programNext + 1 }) hbare
      start := rfl
      safe := fun i hi => by
        by_cases hrow : row = i
        · subst hrow
          exact .inr (hsteady.safe row h.safe)
        · exact .inl (by rwa [← hothers i hrow])
      made := fun i f' hf' => by
        by_cases hrow : row = i
        · subst hrow
          exact .inr ⟨rfl, Option.some.inj (hf'.symm.trans hfunction)⟩
        · exact .inl (by rwa [← hothers i hrow])
      program := h.program
      strays := hstrays.trans h.strays }

end Heads

end OnePass.Syntax
