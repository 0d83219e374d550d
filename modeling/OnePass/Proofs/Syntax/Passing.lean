import OnePass.Proofs.Syntax.Layout

/-!
# What a statement leaves behind

Whatever is compiled in a statement, in the end the stack, the scope and the open
definitions are as before, and so are all slots before its own. Only breaks and continues
wait on, for the end of the loop that the statement stands in.

* `Lengthens`: a program with more behind it, and slots in that that wait.
* `Passes`: a state that a statement has been compiled in.
* `Fit`: a state that a statement can be compiled in. `Fit.passes`: it is fit for the next.
-/

namespace OnePass.Syntax

open OnePass.Derivation Emission Names Target
open Grammar (Action Mark)

/-- Slots that wait for the end of a loop, the breaks and the continues. -/
abbrev Waiting := Exit → List Nat

/-- No slots. -/
def Waiting.none : Waiting := fun _ => []

/-- The slots of two stretches of code. -/
def Waiting.append (a b : Waiting) : Waiting := fun e => a e ++ b e

/-- **A program with more behind it.** What was there is as it was, and in what is new these slots
wait to be filled. -/
structure Lengthens (waiting : Waiting) (p p' : Program) : Prop where
  kept : ∀ k < p.size, p'[k]? = p[k]?
  size : p.size ≤ p'.size
  waits : ∀ e, ∀ k ∈ waiting e, p.size ≤ k ∧ p'[k]? = some none
  apart : ∀ k ∈ waiting .breaks, k ∉ waiting .continues

section Lengthens

variable {p p' p'' : Program} {waiting waiting' : Waiting} {i : Instruction}

theorem Lengthens.trans (h : Lengthens waiting p p') (h' : Lengthens waiting' p' p'') :
    Lengthens (waiting.append waiting') p p'' where
  kept k hk := (h'.kept k (Nat.lt_of_lt_of_le hk h.size)).trans (h.kept k hk)
  size := Nat.le_trans h.size h'.size
  waits e k hk := by
    rcases List.mem_append.1 hk with hk | hk
    · obtain ⟨hle, hnone⟩ := h.waits e k hk
      have hlt := (Array.getElem?_eq_some_iff.1 hnone).1
      exact ⟨hle, (h'.kept k hlt).trans hnone⟩
    · obtain ⟨hle, hnone⟩ := h'.waits e k hk
      exact ⟨Nat.le_trans h.size hle, hnone⟩
  apart k hk hc := by
    -- slots of the first stretch lie before those of the second
    have hbefore : ∀ e, k ∈ waiting e → k < p'.size := fun e hm =>
      (Array.getElem?_eq_some_iff.1 (h.waits e k hm).2).1
    rcases List.mem_append.1 hk with hk | hk <;> rcases List.mem_append.1 hc with hc | hc
    · exact h.apart k hk hc
    · exact absurd (hbefore _ hk) (Nat.not_lt.2 (h'.waits _ k hc).1)
    · exact absurd (hbefore _ hc) (Nat.not_lt.2 (h'.waits _ k hk).1)
    · exact h'.apart k hk hc

theorem lengthens_append (p : Program) (code : List Instruction) :
    Lengthens .none p (p ++ (code.map some).toArray) where
  kept k hk := Array.getElem?_append_left hk
  size := by simp
  waits _ _ hk := absurd hk List.not_mem_nil
  apart _ hk := absurd hk List.not_mem_nil

theorem lengthens_refl (p : Program) : Lengthens .none p p := by
  have h := lengthens_append p []
  simpa using h

theorem lengthens_push (p : Program) (i : Instruction) : Lengthens .none p (p.push (some i)) := by
  rw [Array.push_eq_append]
  exact lengthens_append p [i]

@[simp] theorem Waiting.none_append (a : Waiting) : Waiting.none.append a = a := rfl

@[simp] theorem Waiting.append_none (a : Waiting) : a.append .none = a := by
  funext e
  exact List.append_nil _

/-- One slot that waits. -/
def Waiting.one (e : Exit) (slot : Nat) : Waiting := fun e' => if e' = e then [slot] else []

theorem lengthens_wait (p : Program) (e : Exit) : Lengthens (.one e p.size) p (p.push none) where
  kept k hk := by rw [Array.getElem?_push, if_neg (Nat.ne_of_lt hk)]
  size := by simp
  waits e' k hk := by
    unfold Waiting.one at hk
    split at hk
    · obtain rfl := List.mem_singleton.1 hk
      exact ⟨Nat.le_refl _, by simp⟩
    · exact absurd hk List.not_mem_nil
  apart k hk hc := by
    unfold Waiting.one at hk hc
    cases e
    · exact absurd hc (by simp)
    · exact absurd hk (by simp)

/-- **A slot is held,** more code is put behind it, and then it is filled. -/
theorem Lengthens.hold (h : Lengthens waiting (p.push none) p') (i : Instruction) :
    Lengthens waiting p (settled p' p.size i) ∧
      Holds (settled p' p.size i) p.size i := by
  have hsize : (p.push none).size = p.size + 1 := Array.size_push _
  have hnone : p'[p.size]? = some none := by
    rw [h.kept _ (by omega), Array.getElem?_push, if_pos rfl]
  constructor
  · constructor
    · intro k hk
      rw [getElem?_settled, if_neg fun hc => Nat.ne_of_lt hk hc.1, h.kept k (by omega),
        Array.getElem?_push, if_neg (Nat.ne_of_lt hk)]
    · have hle := h.size
      rw [size_settled]
      omega
    · intro e k hk
      obtain ⟨hle, hwait⟩ := h.waits e k hk
      rw [getElem?_settled, if_neg fun hc => by omega]
      exact ⟨by omega, hwait⟩
    · exact h.apart
  · rw [Holds, getElem?_settled, if_pos ⟨rfl, hnone⟩]

/-- **All that waits is filled.** -/
theorem Lengthens.settle (h : Lengthens waiting p p') (i j : Instruction) :
    let q := settledAll (settledAll p' (waiting .breaks) i) (waiting .continues) j
    Lengthens .none p q ∧ (∀ k ∈ waiting .breaks, Holds q k i) ∧
      (∀ k ∈ waiting .continues, Holds q k j) ∧ ∀ k i', Holds p' k i' → Holds q k i' := by
  intro q
  have hget : ∀ k, q[k]? =
      if k ∈ waiting .continues ∧ p'[k]? = some none then some (some j)
      else if k ∈ waiting .breaks ∧ p'[k]? = some none then some (some i) else p'[k]? := by
    intro k
    rw [getElem?_settledAll, getElem?_settledAll]
    by_cases hb : k ∈ waiting .breaks
    · simp [hb, h.apart k hb]
    · simp [hb]
  refine ⟨⟨fun k hk => ?_, ?_, fun _ _ hk => absurd hk List.not_mem_nil,
    fun _ hk => absurd hk List.not_mem_nil⟩, fun k hk => ?_, fun k hk => ?_, fun k i' hi => ?_⟩
  · have hout : ∀ e, k ∉ waiting e := fun e hm => Nat.not_lt.2 (h.waits e k hm).1 hk
    rw [hget, if_neg fun hc => hout _ hc.1, if_neg fun hc => hout _ hc.1, h.kept k hk]
  · have hle := h.size
    simp only [q, size_settledAll]
    exact hle
  · rw [Holds, hget, if_neg fun hc => h.apart k hk hc.1, if_pos ⟨hk, (h.waits _ k hk).2⟩]
  · rw [Holds, hget, if_pos ⟨hk, (h.waits _ k hk).2⟩]
  · have hi' : p'[k]? = some (some i') := hi
    rw [Holds, hget, hi']
    simp

end Lengthens

/-- The record with more slots that wait for the end of the innermost loop. -/
def awaiting (r : LoopRecord) (waiting : Waiting) : LoopRecord :=
  { r with
    breaks := r.breaks ++ waiting .breaks
    continues := r.continues ++ waiting .continues }

@[simp] theorem awaiting_none (r : LoopRecord) : awaiting r .none = r := by
  simp [awaiting, Waiting.none]

theorem awaiting_append (r : LoopRecord) (a b : Waiting) :
    awaiting r (a.append b) = awaiting (awaiting r a) b := by
  simp [awaiting, Waiting.append]

/-- The end of a loop gets all that waited since it began. -/
theorem leave?_awaiting (r : LoopRecord) (start : Nat) (waiting : Waiting) :
    (awaiting (r.enter start) waiting).leave? =
      some (⟨start, waiting .breaks, waiting .continues⟩, r) := by
  simp [awaiting, LoopRecord.enter, LoopRecord.leave?]

/-- The open definitions, with a return noted in the innermost. -/
def noting (returns : Bool) (scope : Nat) : List Definition → List Definition
  | [] => []
  | d :: rest => d.noting returns scope :: rest

@[simp] theorem noting_false (scope : Nat) (ds : List Definition) : noting false scope ds = ds := by
  cases ds <;> simp [noting, Definition.noting]

theorem noting_noting (a b : Bool) (scope : Nat) (ds : List Definition) :
    noting b scope (noting a scope ds) = noting (a || b) scope ds := by
  cases ds with
  | nil => rfl
  | cons d rest => cases a <;> cases b <;> simp [noting, Definition.noting]

/-- **A state that something has been compiled in.** It may note a return, leave slots that wait, and
define these functions. All else is as before. -/
structure Passes (E : Setting) (returns : Bool) (waiting : Waiting) (bodies : List Body)
    (strays : List SemanticFault) (g g' : Generator) : Prop where
  table : Keeps E g.symbols g'.symbols
  current : g'.currentScope = g.currentScope
  records : ∀ r, E.Records g.symbols r → E.Records g'.symbols (awaiting r waiting)
  definitions : g'.definitions = noting returns g.currentScope g.definitions
  stack : g'.stack = g.stack
  safe : ∀ row, (g'.symbols.function? row).isSome →
    (g.symbols.function? row).isSome ∨ E.Safe g'.symbols row
  made : ∀ row f, g'.symbols.function? row = some f →
    (∃ f₀, g.symbols.function? row = some f₀ ∧ f₀.bare = f.bare) ∨
      (∃ b ∈ bodies, b.function = f.bare) ∧
        ∃ s, g'.symbols.scope? row = some s ∧ g.currentScope ≤ s
  program : Lengthens waiting g.memory.program g'.memory.program
  strays : g'.strays = g.strays ++ strays

/-- **A state that a statement can be compiled in,** inside of a function and a loop if it is. -/
structure Fit (E : Setting) (f? : Option FunctionInfo) (inLoop : Bool) (g : Generator) : Prop where
  rooted : g.symbols.scopes.Rooted
  records : ∃ r, E.Records g.symbols r
  safe : ∀ row, (g.symbols.function? row).isSome → E.Safe g.symbols row
  scope : ∃ region parent, g.symbols.scopes.At g.currentScope region parent ∧
    decide (region = .loop) = inLoop
  reserved : inLoop = true → E.config.keywords.contains loopKeyword = true
  definition : match f? with
    | none => g.definitions = []
    | some f => ∃ d rest f', g.definitions = d :: rest ∧ d.header = none ∧
      g.symbols.function? d.row = some f' ∧ f'.bare = f.bare

section Passes

variable {E : Setting} {returns returns' : Bool} {waiting waiting' : Waiting}
  {bodies bodies' : List Body} {strays strays' : List SemanticFault} {g g' g'' : Generator}
  {f? : Option FunctionInfo} {inLoop : Bool}

theorem Passes.trans (h : Passes E returns waiting bodies strays g g')
    (h' : Passes E returns' waiting' bodies' strays' g' g'') :
    Passes E (returns || returns') (waiting.append waiting') (bodies ++ bodies')
      (strays ++ strays') g g'' where
  table := h.table.trans h'.table
  current := h'.current.trans h.current
  records r hr := by
    rw [awaiting_append]
    exact h'.records _ (h.records r hr)
  definitions := by rw [h'.definitions, h.definitions, h.current, noting_noting]
  stack := h'.stack.trans h.stack
  safe row hrow := by
    rcases h'.safe row hrow with hrow | hrow
    · exact (h.safe row hrow).imp_right (h'.table.safe row)
    · exact .inr hrow
  made row f hf := by
    rcases h'.made row f hf with ⟨f₁, hf₁, hbare₁⟩ | ⟨⟨b, hb, hfun⟩, hplace⟩
    · rcases h.made row f₁ hf₁ with ⟨f₀, hf₀, hbare₀⟩ | ⟨⟨b, hb, hfun⟩, s, hs, hle⟩
      · exact .inl ⟨f₀, hf₀, hbare₀.trans hbare₁⟩
      · exact .inr ⟨⟨b, List.mem_append_left _ hb, hfun.trans hbare₁⟩, s,
          h'.table.places row s hs, hle⟩
    · exact .inr ⟨⟨b, List.mem_append_right _ hb, hfun⟩, h.current ▸ hplace⟩
  program := h.program.trans h'.program
  strays := by rw [h'.strays, h.strays, List.append_assoc]

/-- **What only computes** passes, if the stack is as before. -/
theorem passes_quiet (h : Quiet E g g') (hg : Fit E f? inLoop g) (hstack : g'.stack = g.stack)
    (hstrays : g'.strays = g.strays) : Passes E false .none [] [] g g' where
  table := h.keeps hg.rooted hg.records
  current := congrArg Scopes.current h.scopes
  records r hr := by
    rw [awaiting_none]
    exact (h.steady hg.rooted hg.records).records r hr
  definitions := by rw [noting_false, h.definitions]
  stack := hstack
  safe row hrow := .inl (by rwa [h.functions] at hrow)
  made row f hf := .inl ⟨f, by rwa [h.functions] at hf, rfl⟩
  program := by
    obtain ⟨code, hcode, -⟩ := h.program
    rw [hcode]
    exact lengthens_append _ _
  strays := by rw [hstrays, List.append_nil]

/-- **A state that is passed is fit** for what comes next. -/
theorem Fit.passes (hg : Fit E f? inLoop g) (h : Passes E returns waiting bodies strays g g') :
    Fit E f? inLoop g' where
  rooted := h.table.rooted hg.rooted
  records := by
    obtain ⟨r, hr⟩ := hg.records
    exact ⟨_, h.records r hr⟩
  safe row hrow := by
    rcases h.safe row hrow with hrow | hrow
    · exact h.table.safe row (hg.safe row hrow)
    · exact hrow
  scope := by
    obtain ⟨region, parent, hat, hregion⟩ := hg.scope
    rw [h.current]
    exact ⟨region, parent, h.table.scopes _ _ _ hat, hregion⟩
  reserved := hg.reserved
  definition := by
    have hdefinition := hg.definition
    cases f? with
    | none =>
      have hnone : g.definitions = [] := hdefinition
      rw [h.definitions, hnone]
      rfl
    | some f =>
      obtain ⟨d, rest, f', hd, hheader, hf', hbare⟩ := hdefinition
      obtain ⟨f'', hf'', hbare'⟩ := h.table.functions _ _ hf'
      refine ⟨d.noting returns g.currentScope, rest, f'', ?_, hheader, hf'', hbare'.trans hbare⟩
      rw [h.definitions, hd]
      rfl

/-- Whether the current scope is a loop. -/
theorem Fit.isLoop (hg : Fit E f? inLoop g) :
    g.symbols.scopes.isLoop g.currentScope = inLoop := by
  obtain ⟨region, parent, hat, hregion⟩ := hg.scope
  rw [Scopes.isLoop, hat.region?, ← hregion]
  cases region <;> rfl

end Passes

section Steps

variable {E : Setting} {returns : Bool} {waiting : Waiting} {bodies : List Body}
  {strays : List SemanticFault} {g g₁ g₂ g₃ : Generator} {f? : Option FunctionInfo}
  {inLoop : Bool}

/-- Fitness has to do with names and definitions only. -/
theorem Fit.quiet (hg : Fit E f? inLoop g) (h : Quiet E g g₁) : Fit E f? inLoop g₁ where
  rooted := h.scopes ▸ hg.rooted
  records := by
    obtain ⟨r, hr⟩ := hg.records
    exact ⟨r, (h.steady hg.rooted hg.records).records r hr⟩
  safe row hrow := by
    rw [h.functions] at hrow
    exact (h.keeps hg.rooted hg.records).safe row (hg.safe row hrow)
  scope := by
    obtain ⟨region, parent, hat, hregion⟩ := hg.scope
    have hcurrent : g₁.currentScope = g.currentScope := congrArg Scopes.current h.scopes
    rw [hcurrent, h.scopes]
    exact ⟨region, parent, hat, hregion⟩
  reserved := hg.reserved
  definition := by
    have hdefinition := hg.definition
    cases f? with
    | none => exact h.definitions.trans hdefinition
    | some f =>
      obtain ⟨d, rest, f', hd, hheader, hf', hbare⟩ := hdefinition
      exact ⟨d, rest, f', h.definitions.trans hd, hheader, (h.functions _).trans hf', hbare⟩

/-- The definitions with one more slot held by the innermost. -/
def holding : List Definition → List Definition
  | [] => []
  | d :: rest => d.hold :: rest

@[simp] theorem definitions_held (g : Generator) : g.held.definitions = holding g.definitions := by
  change (match g.definitions with | [] => [] | d :: rest => d.hold :: rest) = _
  cases g.definitions <;> rfl

/-- No return is noted while a slot is held. -/
@[simp] theorem noting_holding (scope : Nat) (ds : List Definition) :
    noting returns scope (holding ds) = holding ds := by
  cases ds <;> simp [noting, holding, Definition.noting, Definition.hold]

theorem definitions_freed {st : OperandStack} {ds : List Definition}
    (h : g.definitions = holding ds) : (g.freed st).definitions = ds := by
  unfold Generator.freed Generator.mapDefinition
  dsimp only
  rw [h]
  cases ds <;> rfl

theorem Fit.held (hg : Fit E f? inLoop g) : Fit E f? inLoop g.held where
  rooted := hg.rooted
  records := hg.records
  safe := hg.safe
  scope := hg.scope
  reserved := hg.reserved
  definition := by
    have hdefinition := hg.definition
    cases f? with
    | none =>
      have hnone : g.definitions = [] := hdefinition
      simp only [definitions_held, hnone]
      rfl
    | some f =>
      obtain ⟨d, rest, f', hd, hheader, hf', hbare⟩ := hdefinition
      exact ⟨d.hold, rest, f', by rw [definitions_held, hd]; rfl, hheader, hf', hbare⟩

/-- **A slot is held while a block is compiled,** and then filled. -/
theorem passes_held (hg : Fit E f? inLoop g) (hquiet : Quiet E g g₁) (hstrays : g₁.strays = g.strays)
    (hread : Quiet E g₁.held g₂) (hmemory : g₂.memory = g₁.held.memory)
    (hstrays' : g₂.strays = g₁.strays) (hblock : Passes E returns waiting bodies strays g₂ g₃)
    (i : Instruction) :
    Passes E false waiting bodies strays g
        ((g₃.freed g.stack).withProgram (settled g₃.memory.program g₁.programNext i)) ∧
      Holds (settled g₃.memory.program g₁.programNext i) g₁.programNext i := by
  have hg₁ := hg.quiet hquiet
  have hg₂ := hg₁.held.quiet hread
  have hpush : g₂.memory.program = g₁.memory.program.push none := by
    rw [hmemory]
    rfl
  have hprogram := hblock.program
  rw [hpush] at hprogram
  have hsettled := hprogram.hold i
  have hfirst : Passes E false .none [] [] g { g₁ with stack := g.stack } :=
    passes_quiet { hquiet with } hg rfl hstrays
  have hlengthens := hfirst.program.trans hsettled.1
  rw [Waiting.none_append] at hlengthens
  refine ⟨?_, hsettled.2⟩
  have hkeeps := hquiet.keeps hg.rooted hg.records
  have hkeeps' : Keeps E g₁.symbols g₂.symbols := hread.keeps hg₁.rooted hg₁.records
  exact
    { table := (hkeeps.trans hkeeps').trans hblock.table
      current := hblock.current.trans
        ((congrArg Scopes.current hread.scopes).trans (congrArg Scopes.current hquiet.scopes))
      records := fun r hr => hblock.records r
        ((hread.steady hg₁.rooted hg₁.records).records r
          ((hquiet.steady hg.rooted hg.records).records r hr))
      definitions := by
        have hdefs : g₃.definitions = holding g.definitions := by
          rw [hblock.definitions, hread.definitions, definitions_held, noting_holding,
            hquiet.definitions]
        rw [noting_false]
        exact definitions_freed hdefs
      stack := rfl
      safe := fun row hrow => by
        rcases hblock.safe row hrow with hrow | hrow
        · rw [hread.functions] at hrow
          exact .inl (by rwa [← hquiet.functions])
        · exact .inr hrow
      made := fun row f hf => by
        rcases hblock.made row f hf with ⟨f₀, hf₀, hbare⟩ | hnew
        · rw [hread.functions] at hf₀
          exact .inl ⟨f₀, by rwa [← hquiet.functions], hbare⟩
        · have hcurrent : g₂.currentScope = g.currentScope :=
            (congrArg Scopes.current hread.scopes).trans (congrArg Scopes.current hquiet.scopes)
          exact .inr (hcurrent ▸ hnew)
      program := hlengthens
      strays := by
        have h : g₃.strays = g.strays ++ strays := by rw [hblock.strays, hstrays', hstrays]
        exact h }

/-- Where the loop keyword is reserved, the record stands on its row. -/
theorem loops?_of_records {t : SymbolTable} {r : LoopRecord}
    (hk : E.config.keywords.contains loopKeyword = true) (hr : E.Records t r) :
    t.loops? = some r := by
  rwa [Setting.Records, if_pos hk] at hr

theorem records_of_loops?_eq {t : SymbolTable} {r : LoopRecord}
    (hk : E.config.keywords.contains loopKeyword = true) (hr : t.loops? = some r) :
    E.Records t r := by
  rwa [Setting.Records, if_pos hk]

/-- **A loop that is entered** is fit for what it repeats. -/
theorem Fit.enterLoop {t : SymbolTable} {r : LoopRecord} (hg : Fit E f? inLoop g)
    (hk : E.config.keywords.contains loopKeyword = true) (ht : g.symbols.Recorded t r) :
    Fit E f? true { g with symbols := t.enterScope .loop } where
  rooted := (ht.scopes ▸ hg.rooted).enter _ _
  records := by
    refine ⟨r, records_of_loops?_eq hk ?_⟩
    exact (SymbolTable.loops?_enterScope (ht.scopes ▸ hg.rooted) _).trans ht.loops
  safe row hrow := by
    refine (keeps_recorded ht).safe row (hg.safe row ?_)
    rw [← ht.functions]
    exact hrow
  scope := ⟨.loop, some t.currentScope, Scopes.at_enter _ _ _, rfl⟩
  reserved _ := hk
  definition := by
    have hdefinition := hg.definition
    cases f? with
    | none => exact hdefinition
    | some f =>
      obtain ⟨d, rest, f', hd, hheader, hf', hbare⟩ := hdefinition
      exact ⟨d, rest, f', hd, hheader, (ht.functions _).trans hf', hbare⟩

/-- **A loop is closed behind its block:** the condition's slot and all that waits is filled. -/
theorem closedLoop_spec {p q : Program} (c : Operand) (start : Nat)
    (h : Lengthens waiting (p.push none) q) :
    let r := closedLoop q p.size c ⟨start, waiting .breaks, waiting .continues⟩
    Lengthens .none p r ∧ Holds r p.size (.jumpIfFalse c (q.size + 1)) ∧
      Holds r q.size (.jump start) ∧ r.size = q.size + 1 ∧
      ∀ e, ∀ k ∈ waiting e, Holds r k (.jump (Loop.target ⟨start, q.size + 1⟩ e)) := by
  intro r
  have hpush : Lengthens waiting (p.push none) (q.push (some (.jump start))) := by
    have h' := h.trans (lengthens_push q (.jump start))
    rwa [Waiting.append_none] at h'
  obtain ⟨hheld, hcondition⟩ := hpush.hold (.jumpIfFalse c (q.size + 1))
  obtain ⟨hlengthens, hbreaks, hcontinues, hstays⟩ :=
    hheld.settle (.jump (q.size + 1)) (.jump start)
  have hback : Holds (settled (q.push (some (.jump start))) p.size (.jumpIfFalse c (q.size + 1)))
      q.size (.jump start) := by
    rw [Holds, getElem?_settled, if_neg, Array.getElem?_push, if_pos rfl]
    rintro ⟨-, hnone⟩
    rw [Array.getElem?_push, if_pos rfl] at hnone
    cases hnone
  refine ⟨hlengthens, hstays _ _ hcondition, hstays _ _ hback, ?_, fun e k hk => ?_⟩
  · simp only [r, closedLoop, size_settledAll, size_settled, Array.size_push]
  · cases e with
    | breaks => exact hbreaks k hk
    | continues => exact hcontinues k hk

/-- **A loop is compiled** around its block. -/
theorem passes_loop {t t' : SymbolTable} {r : LoopRecord} {g₄ : Generator}
    (hg : Fit E f? inLoop g) (hk : E.config.keywords.contains loopKeyword = true)
    (hr : E.Records g.symbols r) (ht : g.symbols.Recorded t (r.enter g.programNext))
    (hg₁ : g₁ = { g with symbols := t.enterScope .loop }) (hquiet : Quiet E g₁ g₂)
    (hstrays : g₂.strays = g.strays) (hread : Quiet E g₂.held g₃)
    (hstrays' : g₃.strays = g₂.strays) (hblock : Passes E returns waiting bodies strays g₃ g₄)
    (ht' : g₄.symbols.Recorded t' r) (p : Program) (hp : Lengthens .none g₂.memory.program p) :
    Passes E false .none bodies strays g
      { (g₄.freed g.stack).withProgram p with symbols := t'.leaveScope } := by
  subst hg₁
  have hfit₁ := hg.enterLoop hk ht
  have hfit₂ := (hfit₁.quiet hquiet).held
  have hkeeps₁ : Keeps E g.symbols (t.enterScope .loop) :=
    (keeps_recorded ht).trans (keeps_enterScope t .loop)
  have hkeeps₂ : Keeps E (t.enterScope .loop) g₂.symbols :=
    hquiet.keeps hfit₁.rooted hfit₁.records
  have hkeeps₃ : Keeps E g₂.symbols g₃.symbols := hread.keeps hfit₂.rooted hfit₂.records
  have hkeeps := (hkeeps₂.trans hkeeps₃).trans hblock.table
  have hcurrent : g₄.currentScope = (t.enterScope .loop).currentScope :=
    hblock.current.trans ((congrArg Scopes.current hread.scopes).trans
      (congrArg Scopes.current hquiet.scopes))
  have hfunctions : ∀ row, g₃.symbols.function? row = g.symbols.function? row := fun row =>
    (hread.functions row).trans ((hquiet.functions row).trans (ht.functions row))
  exact
    { table := ((hkeeps₁.trans hkeeps).trans (keeps_recorded ht')).trans (keeps_leaveScope t')
      current := by
        have hat := hkeeps.scopes _ _ _ (Scopes.at_enter t.scopes .loop t.rows.size)
        have hinner : t'.scopes.current = (t.enterScope .loop).currentScope := by
          rw [ht'.scopes]
          exact hcurrent
        have hat' : t'.scopes.At t'.scopes.current .loop (some t.scopes.current) := by
          rw [hinner, ht'.scopes]
          exact hat
        have houter : t.scopes.current = g.currentScope := congrArg Scopes.current ht.scopes
        exact (Scopes.current_leave hat' _).trans houter
      records := fun r' hr' => by
        rw [awaiting_none]
        refine records_of_loops?_eq hk ?_
        have hsame : r' = r := by
          have h := loops?_of_records hk hr'
          rw [loops?_of_records hk hr] at h
          exact (Option.some.inj h).symm
        have hroot : t'.scopes.Rooted := (keeps_recorded (E := E) ht').rooted
          (hkeeps.rooted (hkeeps₁.rooted hg.rooted))
        exact (SymbolTable.loops?_leaveScope hroot).trans (hsame ▸ ht'.loops)
      definitions := by
        have hdefs : g₄.definitions = holding g.definitions := by
          rw [hblock.definitions, hread.definitions, definitions_held, noting_holding,
            hquiet.definitions]
        rw [noting_false]
        exact definitions_freed hdefs
      stack := rfl
      safe := fun row hrow => by
        have hrow' : (g₄.symbols.function? row).isSome := by
          rw [← ht'.functions]
          exact hrow
        rcases hblock.safe row hrow' with hrow' | hrow'
        · rw [hfunctions] at hrow'
          exact .inl hrow'
        · exact .inr ((keeps_recorded ht').safe row hrow')
      made := fun row f hf => by
        have hf' : g₄.symbols.function? row = some f := by
          rw [← ht'.functions]
          exact hf
        rcases hblock.made row f hf' with ⟨f₀, hf₀, hbare⟩ | hnew
        · rw [hfunctions] at hf₀
          exact .inl ⟨f₀, hf₀, hbare⟩
        · obtain ⟨hbody, s, hs, hle⟩ := hnew
          refine .inr ⟨hbody, s, (ht'.places row).trans hs, ?_⟩
          -- the scope of the loop is younger than the one around it
          obtain ⟨region, parent, ⟨scope, hscope, -⟩, -⟩ := hg.scope
          have hlt := (Array.getElem?_eq_some_iff.1 hscope).1
          have hcurrent : g₃.currentScope = g.symbols.scopes.all.size :=
            ((congrArg Scopes.current hread.scopes).trans
              (congrArg Scopes.current hquiet.scopes)).trans (congrArg (·.all.size) ht.scopes)
          omega
      program := by
        have hfirst : Passes E false .none [] [] _ { g₂ with stack := g.stack } :=
          passes_quiet { hquiet with } hfit₁ rfl hstrays
        have h := hfirst.program.trans hp
        rwa [Waiting.none_append] at h
      strays := by
        have h : g₄.strays = g.strays ++ strays := by rw [hblock.strays, hstrays', hstrays]
        exact h }

/-- Outside of functions a return is noted nowhere. -/
theorem passes_noting (h : Passes E false waiting bodies strays g g₁) (hd : g.definitions = []) :
    Passes E true waiting bodies strays g g₁ :=
  { h with definitions := by rw [h.definitions, hd]; rfl }

theorem definitions_noted (g : Generator) :
    g.noted.definitions = noting true g.currentScope g.definitions := by
  change (match g.definitions with
    | [] => []
    | d :: rest => d.noting true g.currentScope :: rest) = _
  cases g.definitions <;> rfl

/-- A function that comes to return a value is still there. -/
theorem keeps_valued {t : SymbolTable} {row : Nat} {f : FunctionInfo} (hroot : t.scopes.Rooted)
    (hf : t.function? row = some f) (hsafe : E.Safe t row) :
    Keeps E t (t.setMeaning row (.function { f with returnsValue := true })) ∧
      ∀ i f', (t.setMeaning row (.function { f with returnsValue := true })).function? i = some f' →
        ∃ f₀, t.function? i = some f₀ ∧ f₀.bare = f'.bare := by
  have hget : ∀ i, (t.setMeaning row (.function { f with returnsValue := true })).function? i =
      if row = i then some { f with returnsValue := true } else t.function? i := by
    intro i
    rw [SymbolTable.function?, SymbolTable.meaning?_setMeaning]
    split
    · rename_i hi
      subst hi
      obtain ⟨m, hm, -⟩ := Option.bind_eq_some_iff.1 hf
      rw [hm]
      rfl
    · rfl
  refine ⟨⟨fun h => h, fun _ _ _ h => h, fun _ _ hs => SymbolTable.scope?_setMeaning.trans hs,
    fun i hi => (steady_setMeaning hroot hsafe).safe i hi, fun i f₀ hf₀ => ?_⟩, fun i f' hf' => ?_⟩
  · rw [hget]
    split
    · rename_i hi
      subst hi
      obtain rfl : f = f₀ := Option.some.inj (hf.symm.trans hf₀)
      exact ⟨_, rfl, rfl⟩
    · exact ⟨f₀, hf₀, rfl⟩
  · rw [hget] at hf'
    split at hf'
    · rename_i hi
      subst hi
      obtain rfl := Option.some.inj hf'
      exact ⟨f, hf, rfl⟩
    · exact ⟨f', hf', rfl⟩

/-- **A return with a value** is noted, and the function comes to return one. -/
theorem passes_returnWith {f : FunctionInfo} {value : Operand} (hg : Fit E (some f) inLoop g)
    (hquiet : Quiet E g g₁) (hstack : g₁.stack = value :: g.stack) (hstrays : g₁.strays = g.strays)
    (lexeme : String) (line : Nat) : Ends (perform .returnValue lexeme line) g₁ fun _ g' =>
      Passes E true .none [] [] g g' ∧ g'.memory.program =
        (g₁.memory.program.push (some (.assign value (.direct f.result)))).push
          (some (.jumpThrough f.returnCell)) := by
  intro u g' hg'
  have hstrays' := strays_perform (by simp) (by simp) lexeme line g₁ u g' hg'
  have hg₁ := hg.quiet hquiet
  obtain ⟨d, rest, f', hd, -, hf', hbare⟩ := hg₁.definition
  obtain ⟨g₂, htook, rfl⟩ := ends_returnWith_eq hstack hd hf' u g' hg'
  obtain ⟨voids, errors, rfl⟩ := htook.frame
  have hresult : f'.bare.result = f.bare.result := congrArg FunctionInfo.result hbare
  have hreturn : f'.bare.returnCell = f.bare.returnCell := congrArg FunctionInfo.returnCell hbare
  rw [FunctionInfo.result_bare, FunctionInfo.result_bare] at hresult
  rw [FunctionInfo.returnCell_bare, FunctionInfo.returnCell_bare] at hreturn
  have hsafe := hg₁.safe d.row (by rw [hf']; rfl)
  obtain ⟨hkeeps, hmade⟩ := keeps_valued hg₁.rooted hf' hsafe
  have hfirst : Passes E false .none [] [] g { g₁ with stack := g.stack } :=
    passes_quiet { hquiet with } hg rfl hstrays
  refine ⟨?_, by rw [← hresult, ← hreturn]; rfl⟩
  exact
    { table := hfirst.table.trans hkeeps
      current := hfirst.current
      records := fun r hr => by
        have hr' := hfirst.records r hr
        rw [awaiting_none] at hr' ⊢
        exact (steady_setMeaning hg₁.rooted hsafe).records r hr'
      definitions := by
        have hnoted := definitions_noted g₁
        rw [hquiet.definitions] at hnoted
        have hcurrent : g₁.currentScope = g.currentScope := hfirst.current
        rw [hcurrent] at hnoted
        exact hnoted
      stack := rfl
      safe := fun row hrow => by
        obtain ⟨f₁, hf₁⟩ := Option.isSome_iff_exists.1 hrow
        obtain ⟨f₀, hf₀, -⟩ := hmade row f₁ hf₁
        rw [hquiet.functions] at hf₀
        exact .inl (by rw [hf₀]; rfl)
      made := fun row f₁ hf₁ => by
        obtain ⟨f₀, hf₀, hbare₀⟩ := hmade row f₁ hf₁
        rw [hquiet.functions] at hf₀
        exact .inl ⟨f₀, hf₀, hbare₀⟩
      program := by
        have h := (hfirst.program.trans (lengthens_push _ (.assign value (.direct f'.result)))).trans
          (lengthens_push _ (.jumpThrough f'.returnCell))
        exact h
      strays := by rw [hstrays', hstrays, List.append_nil] }

/-- Outside of functions a return only computes its value. -/
theorem passes_returnWith_none {value : Operand} (hg : Fit E none inLoop g)
    (hquiet : Quiet E g g₁) (hstack : g₁.stack = value :: g.stack) (hstrays : g₁.strays = g.strays)
    (lexeme : String) (line : Nat) : Ends (perform .returnValue lexeme line) g₁ fun _ g' =>
      Passes E true .none [] [] g g' ∧ g'.memory.program = g₁.memory.program := by
  intro u g' hg'
  have hstrays' := strays_perform (by simp) (by simp) lexeme line g₁ u g' hg'
  have hd : g.definitions = [] := hg.definition
  obtain ⟨voids, errors, rfl⟩ :=
    (ends_returnWith_none hstack (hquiet.definitions.trans hd) u g' hg').frame
  refine ⟨passes_noting ?_ hd, rfl⟩
  exact passes_quiet { hquiet with } hg rfl (hstrays'.trans hstrays)

/-- **A return with no value** is noted. -/
theorem passes_returnNothing {f : FunctionInfo} (hg : Fit E (some f) inLoop g) (lexeme : String)
    (line : Nat) : Ends (perform .returnVoid lexeme line) g fun _ g' =>
      Passes E true .none [] [] g g' ∧
        g'.memory.program = g.memory.program.push (some (.jumpThrough f.returnCell)) := by
  intro u g' hg'
  have hstrays' := strays_perform (by simp) (by simp) lexeme line g u g' hg'
  obtain ⟨d, rest, f', hd, -, hf', hbare⟩ := hg.definition
  obtain rfl := ends_returnNothing_eq hd hf' u g' hg'
  have hreturn : f'.bare.returnCell = f.bare.returnCell := congrArg FunctionInfo.returnCell hbare
  rw [FunctionInfo.returnCell_bare, FunctionInfo.returnCell_bare] at hreturn
  refine ⟨?_, by rw [← hreturn]; rfl⟩
  exact
    { table := .refl E _
      current := rfl
      records := fun r hr => by rwa [awaiting_none]
      definitions := definitions_noted g
      stack := rfl
      safe := fun _ hrow => .inl hrow
      made := fun _ f₁ hf₁ => .inl ⟨f₁, hf₁, rfl⟩
      program := lengthens_push _ _
      strays := by rw [hstrays', List.append_nil] }

theorem passes_returnNothing_none (hg : Fit E none inLoop g) (lexeme : String) (line : Nat) :
    Ends (perform .returnVoid lexeme line) g fun _ g' =>
      Passes E true .none [] [] g g' ∧ g'.memory.program = g.memory.program := by
  intro u g' hg'
  have hd : g.definitions = [] := hg.definition
  obtain rfl := ends_returnNothing_none hd u g' hg'
  exact ⟨passes_noting (passes_quiet (.refl E _) hg rfl rfl) hd, rfl⟩

end Steps

end OnePass.Syntax
