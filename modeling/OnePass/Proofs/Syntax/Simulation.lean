import OnePass.Proofs.Syntax.Conformance
import OnePass.Proofs.Syntax.Enclosed

/-!
# The code of a text does what the text says

By induction on a statement: started at its first slot with cells that mirror those of the
text, the machine does what the run of the statement says. A definition is passed over, and
the body of its function does what it says wherever it is started from.

* `Acts`: what the code between two marks does. `Houses`: the body of a function.
* `Tests.branches`: a condition goes on where the test leads.
* `Statement.does`, `block_does`: statements and blocks do what they say.
-/

namespace OnePass.Syntax

open OnePass.Derivation Emission Names Target
open Grammar (Action Mark Terminal)

/-- A declaration of a global name has no code. -/
theorem memory_bindGlobal {g : Generator} {x : String} {line : Nat} :
    Ends (bindGlobal x line) g fun _ g' => g'.memory = g.memory := by
  simp only [bindGlobal, ends_bind, ends_get]
  split
  · exact (ends_pure ()).2 rfl
  · split
    · exact ends_report.2 rfl
    · simp only [ends_bind, ends_modifyGet, ends_modify]
      rfl

section Acts

variable {E : Setting} {w : List Mark}

/-- **The code between two marks does what runs say,** in a function and in a loop if it is. -/
def Acts (tr : Trace E w) (p : Program) (c : Config) (f? : Option FunctionInfo) (l? : Option Loop)
    (i j : Nat) (run : Nat → Store → Run) : Prop :=
  ∀ fuel back s σ, s.slot = tr.slots i → Mirrors c f? back s.cells σ →
    Conforms p c f? back (exitSlot? f? l? (tr.slots j) back) fuel s (run fuel σ)

/-- **The body of a function between two marks:** the function is on a row with its name, and its
body does what it says, and returns at its end if it does not before. -/
structure Houses (tr : Trace E w) (p : Program) (c : Config) (r : Routine) (B : Body)
    (row n m j : Nat) : Prop where
  mark : n ≤ w.length
  named : Named row r.name (tr.state n)
  lives : (tr.state n).symbols.Lives row
  function : ∃ f, (tr.state n).symbols.function? row = some f ∧ f.bare = B.function.bare
  apart : r.bindings.Apart c (some B.function)
  start : B.function.start = tr.slots n
  acts : Acts tr p c (some B.function) none n m fun fuel => blockRun fuel r.body r.bindings
  leaves : returnsFrom r.body = false → LeavesWith tr p m j B.function (.immediate 0)

/-- **A function of the text** has its body in the program. -/
def Housed (tr : Trace E w) (p : Program) (c : Config) (r : Routine) (B : Body) : Prop :=
  ∃ row n m j, Houses tr p c r B row n m j

/-- **What is shown of a statement or a block:** with the bindings at its place it does what it says,
and so do the bodies of the functions that it defines. -/
def Does (tr : Trace E w) (p : Program) (c : Config) (f? : Option FunctionInfo) (l? : Option Loop)
    (i j : Nat) (run : Bindings → Nat → Store → Run) (routines : Bindings → List Routine)
    (bodies : List Body) : Prop :=
  (∀ l, l? = some l → ∀ exit, l.target exit < 2 ^ 63) → ∀ b, Agrees b (tr.state i) →
    Acts tr p c f? l? i j (run b) ∧ List.Forall₂ (Housed tr p c) (routines b) bodies

variable {tr : Trace E w} {p : Program} {c : Config} {f? : Option FunctionInfo} {l? : Option Loop}
  {inLoop : Bool} {b : Bindings} {i j n m : Nat} {bodies : List Body}

/-- What has no code of its own. -/
theorem acts_nothing {run : Nat → Store → Run} (h : tr.slots j = tr.slots i)
    (hrun : ∀ fuel σ, run fuel σ = .silent σ .falls) : Acts tr p c f? l? i j run := by
  intro fuel back s σ hs hm
  rw [hrun]
  exact .of_silent (.refl p s) (congrArg some (h.trans hs.symm)) rfl fun _ => hm

theorem slots_global (x : String) (h : Span w i j (Statement.global x).marks) :
    tr.slots j = tr.slots i := by
  simp only [Statement.marks, span_cons, span_nil] at h
  obtain ⟨hread, hname, hact, rfl⟩ := h
  have hmemory : (tr.state (i + 1 + 1 + 1)).memory = (tr.state (i + 1 + 1)).memory :=
    tr.of_ends hact memory_bindGlobal
  rw [Trace.slots, Generator.programNext, hmemory]
  change tr.slots (i + 1 + 1) = tr.slots i
  rw [tr.slots_read hname, tr.slots_read hread]

section Runnable

variable (hr : tr.Runnable c p)
include hr

/-- The cells of names at a mark. -/
theorem Trace.apart {k : Mark} (hk : w[i]? = some k) (hb : Agrees b (tr.state i))
    (hg : Fit E f? inLoop (tr.state i)) : b.Apart c f? :=
  hb.apart (hr.settled_of hk) hg

/-- **The code of a value runs** and leaves it in its operand. -/
theorem Yields.evaluates {o : Operand} {v : Store → Int} (h : Yields tr p b i j o v)
    (hi : i ≤ w.length) (ha : b.Apart c f?) {back : Nat} {s : State} {σ : Store}
    (hs : s.slot = tr.slots i) (hm : Mirrors c f? back s.cells σ) :
    ∃ s', Reaches p s s' ∧ s'.slot = tr.slots j ∧ s'.output = s.output ∧
      Mirrors c f? back s'.cells σ ∧ o.read s'.cells = v σ := by
  obtain ⟨s', hsilent, hslot, hv⟩ := h.runs s σ hs (hm.known ha)
  exact ⟨s', hsilent.reaches, hslot, hsilent.output,
    hm.silent ha hsilent (hr.settled i hi).temps.1, hv⟩

/-- **A condition** goes on behind its jump if it is met, and else where the jump leads. -/
theorem Tests.branches {test : Relation} {target : Nat} (h : Tests tr p n m test target)
    (hplain : test.isPlain = true) (hn : n ≤ w.length) (hb : Agrees b (tr.state n))
    (ha : b.Apart c f?) (htarget : target < 2 ^ 63) {back : Nat} {s : State} {σ : Store}
    (hs : s.slot = tr.slots n) (hm : Mirrors c f? back s.cells σ) :
    ∃ s₁ s₂, Reaches p s s₁ ∧ s₁.output = s.output ∧ step? p s₁ = some s₂ ∧
      s₂.output = s₁.output ∧ Mirrors c f? back s₂.cells σ ∧
      s₂.slot = if test.holds b σ then tr.slots m + 1 else target := by
  obtain ⟨hspan, condition, st, hstack, hjump⟩ := h
  obtain ⟨o, hpush, hyields⟩ := test.yields hr hplain hspan hb
  obtain ⟨rfl, -⟩ := List.cons.inj (hstack.symm.trans hpush)
  obtain ⟨s₁, hreaches, hslot, hout, hm₁, hv⟩ := hyields.evaluates hr hn ha hs hm
  have hstep := Holds.jumpIfFalse (hslot ▸ hjump) htarget
  rw [hv, hslot] at hstep
  refine ⟨s₁, _, hreaches, hout, hstep, rfl, hm₁, ?_⟩
  cases test.holds b σ <;> simp

/-- **A condition chooses** between two runs. -/
theorem Tests.conforms {test : Relation} {target : Nat} (h : Tests tr p n m test target)
    (hplain : test.isPlain = true) (hn : n ≤ w.length) (hb : Agrees b (tr.state n))
    (ha : b.Apart c f?) (htarget : target < 2 ^ 63) {fuel back : Nat} {s : State} {σ : Store}
    (hs : s.slot = tr.slots n) (hm : Mirrors c f? back s.cells σ) {exit? : Ending → Option Nat}
    {r r' : Run}
    (hr₁ : ∀ s', s'.slot = tr.slots m + 1 → Mirrors c f? back s'.cells σ →
      Conforms p c f? back exit? fuel s' r)
    (hr₂ : ∀ s', s'.slot = target → Mirrors c f? back s'.cells σ →
      Conforms p c f? back exit? fuel s' r') :
    Conforms p c f? back exit? fuel s (if test.holds b σ then r else r') := by
  obtain ⟨s₁, s₂, hreaches, hout, hstep, hout', hm₂, hslot⟩ :=
    h.branches hr hplain hn hb ha htarget hs hm
  refine .before (hreaches.trans (.single hstep)) (hout'.trans hout) ?_
  split
  · rename_i htrue
    rw [htrue, if_pos rfl] at hslot
    exact hr₁ s₂ hslot hm₂
  · rename_i hfalse
    rw [if_neg hfalse] at hslot
    exact hr₂ s₂ hslot hm₂

/-- **An assignment.** -/
theorem acts_assign (x : String) (e : Expr) (hplain : e.isPlain = true)
    (h : Span w i j (Statement.assign x (.value e)).marks) (hb : Agrees b (tr.state i))
    (hg : Fit E f? inLoop (tr.state i)) :
    Acts tr p c f? l? i j fun fuel => (Statement.assign x (.value e)).run fuel b := by
  simp only [Statement.marks, Assigned.marks, span_cons, span_append, span_nil] at h
  obtain ⟨hread, htarget, hassign, n, he, hact, rfl⟩ := h
  obtain ⟨hb₁, cell, hcell, hstack, hnext, -⟩ := tr.of_ends htarget
    ((tr.agrees_read hread hb).assignTo (x := tr.lexeme (i + 1)))
  rw [tr.lexeme_read hread] at hb₁ hcell
  have hb₂ := tr.agrees_read hassign hb₁
  have hlt := (List.getElem?_eq_some_iff.1 hassign).1
  have hg₂ := ((hg.quiet (tr.quiet_read hread)).quiet (tr.quiet_act htarget rfl)).quiet
    (tr.quiet_read hassign)
  have ha := hb₂.apart (hr.settled _ hlt) hg₂
  have hread? := Bindings.read?_of_own? hcell
  have hbelow := (ha.names x cell hread?).1
  obtain ⟨hfrom, hle, -⟩ := (hr.settled _ hlt).temps
  have hword : cell < 2 ^ 63 := by
    have := hr.capacity
    omega
  -- the target lies on the stack below the value, and is no pointer
  obtain ⟨o, hpush, hyields⟩ := e.yields hr hplain he hb₂
  rw [tr.stack_read hassign, hstack] at hpush
  obtain ⟨g, htook, hstate⟩ := tr.of_ends hact (ends_store_eq hpush)
  have hzone' : g.memory.tempsFrom = c.tempsFrom := by
    rw [htook.memory]
    exact (hr.settled_of hact).temps.2.2.2.1
  rw [writtenThrough_direct (hzone' ▸ hbelow)] at hstate
  have hprogram : (tr.state (n + 1)).memory.program =
      (tr.state n).memory.program.push (some (.assign o (.direct cell))) := by
    rw [hstate, ← htook.memory]
    rfl
  have hslots : tr.slots (n + 1) = tr.slots n + 1 := by
    rw [tr.slots_eq, hprogram, Array.size_push, ← tr.slots_eq]
  have hholds : Holds p (tr.slots n) (.assign o (.direct cell)) :=
    hr.holds hact (hprogram ▸ holds_push _ _)
  have hstart : tr.slots (i + 1 + 1 + 1) = tr.slots i := by
    rw [tr.slots_read hassign, ← tr.slots_read hread]
    exact hnext
  intro fuel back s σ hs hm
  obtain ⟨s₁, hreaches, hslot, hout, hm₁, hv⟩ :=
    hyields.evaluates hr hlt ha (hs.trans hstart.symm) hm
  have hstep := Holds.assign (hslot ▸ hholds) hword
  rw [hv] at hstep
  have hrun : (Statement.assign x (.value e)).run fuel b σ =
      .silent (Function.update σ cell (e.eval (b.assign x) σ)) .falls := by
    rw [Statement.run, hcell]
    rfl
  change Conforms p c f? back _ fuel s ((Statement.assign x (.value e)).run fuel b σ)
  rw [hrun]
  exact .of_silent (hreaches.trans (.single hstep))
    (congrArg some (hslots.trans (congrArg (· + 1) hslot.symm))) hout
    fun _ => hm₁.write ha hread? _

/-- **A print.** -/
theorem acts_print (e : Expr) (hplain : e.isPlain = true)
    (h : Span w i j (Statement.print e).marks) (hb : Agrees b (tr.state i))
    (hg : Fit E f? inLoop (tr.state i)) :
    Acts tr p c f? l? i j fun fuel => (Statement.print e).run fuel b := by
  simp only [Statement.marks, span_cons, span_append, span_nil] at h
  obtain ⟨hread, hopen, n, he, hclose, hact, rfl⟩ := h
  have ha := Trace.apart hr hread hb hg
  obtain ⟨o, hpush, hyields⟩ := e.yields hr hplain he (tr.agrees_read hopen (tr.agrees_read hread hb))
  rw [← tr.stack_read hclose] at hpush
  obtain ⟨g, htook, hstate⟩ := tr.of_ends hact (ends_printValue_eq hpush)
  have hprogram : (tr.state (n + 1 + 1)).memory.program =
      (tr.state (n + 1)).memory.program.push (some (.print o)) := by
    rw [hstate, ← htook.memory]
    rfl
  have hslots : tr.slots (n + 1 + 1) = tr.slots (n + 1) + 1 := by
    rw [tr.slots_eq, hprogram, Array.size_push, ← tr.slots_eq]
  have hholds : Holds p (tr.slots (n + 1)) (.print o) := hr.holds hact (hprogram ▸ holds_push _ _)
  rw [tr.slots_read hclose] at hslots hholds
  have hstart : tr.slots (i + 1 + 1) = tr.slots i := by
    rw [tr.slots_read hopen, tr.slots_read hread]
  intro fuel back s σ hs hm
  obtain ⟨s₁, hreaches, hslot, hout, hm₁, hv⟩ := hyields.evaluates hr
    (List.getElem?_eq_some_iff.1 hopen).1 ha (hs.trans hstart.symm) hm
  have hstep := Holds.print (hslot ▸ hholds)
  rw [hv] at hstep
  have hprinted : (s₁.printed (e.eval b σ)).output = s.output ++ [e.eval b σ] := by
    rw [← hout]
    rfl
  exact .prepend (hreaches.trans (.single hstep)) hprinted
    (.of_silent (.refl p _) (congrArg some (hslots.trans (congrArg (· + 1) hslot.symm))) rfl
      fun _ => hm₁)

/-- **A return with a value** leaves the function around. -/
theorem acts_returnValue (e : Expr) (hplain : e.isPlain = true) {f : FunctionInfo}
    (h : Span w i j (Statement.returnValue e).marks) (hb : Agrees b (tr.state i))
    (hg : Fit E (some f) inLoop (tr.state i))
    (hlaid : (Statement.returnValue e).Laid tr p (some f) l? i j bodies) :
    Acts tr p c (some f) l? i j fun fuel => (Statement.returnValue e).run fuel b := by
  obtain ⟨-, n, value, st, hspan, hstack, hslots, rfl, hassign, hjump, -⟩ := hlaid
  obtain ⟨hread, -⟩ := h
  have ha := Trace.apart hr hread hb hg
  have hlt := (List.getElem?_eq_some_iff.1 hread).1
  obtain ⟨hresult, hreturn, hne⟩ := ha.home f rfl
  obtain ⟨hfrom, hle, -⟩ := (hr.settled _ hlt).temps
  have hcapacity := hr.capacity
  obtain ⟨o, hpush, hyields⟩ := e.yields hr hplain hspan (tr.agrees_read hread hb)
  obtain ⟨rfl, -⟩ := List.cons.inj (hstack.symm.trans hpush)
  intro fuel back s σ hs hm
  obtain ⟨s₁, hreaches, hslot, hout, hm₁, -⟩ :=
    hyields.evaluates hr hlt ha (hs.trans hslots.symm) hm
  have hstep := Holds.assign (hslot ▸ hassign) (by omega)
  generalize hs₂ : s₁.write f.result (value.read s₁.cells) = s₂ at hstep
  have hslot₂ : s₂.slot = tr.slots n + 1 := hs₂ ▸ congrArg (· + 1) hslot
  have hback : s₂.cells f.returnCell = back := by
    rw [← hs₂, State.cells_write, if_neg (Ne.symm hne)]
    exact hm₁.back f rfl
  have hstep' := Holds.jumpThrough (hslot₂ ▸ hjump) (by omega) hback
  refine .of_silent (hreaches.trans (.step hstep (.single hstep'))) rfl ?_ (by simp)
  exact (congrArg State.output hs₂.symm).trans hout

/-- **A return without a value.** -/
theorem acts_returnNothing {f : FunctionInfo} (h : Span w i j Statement.returnNothing.marks)
    (hb : Agrees b (tr.state i)) (hg : Fit E (some f) inLoop (tr.state i))
    (hlaid : Statement.returnNothing.Laid tr p (some f) l? i j bodies) :
    Acts tr p c (some f) l? i j fun fuel => Statement.returnNothing.run fuel b := by
  obtain ⟨-, -, hjump, -⟩ := hlaid
  obtain ⟨hread, -⟩ := h
  have ha := Trace.apart hr hread hb hg
  obtain ⟨-, hreturn, -⟩ := ha.home f rfl
  obtain ⟨hfrom, hle, -⟩ := (hr.settled_of hread).temps
  have hcapacity := hr.capacity
  intro fuel back s σ hs hm
  have hstep := Holds.jumpThrough (hs ▸ hjump) (by omega) (hm.back f rfl)
  exact .of_silent (.single hstep) rfl rfl (by simp)

/-- **A break or a continue.** Without a loop around there is an error. -/
theorem acts_leave (exit : Exit) (hj : j ≤ w.length)
    (hl : ∀ l, l? = some l → ∀ exit, l.target exit < 2 ^ 63)
    (hlaid : (Statement.leave exit).Laid tr p f? l? i j bodies) :
    Acts tr p c f? l? i j fun fuel => (Statement.leave exit).run fuel b := by
  cases l? with
  | some l =>
    obtain ⟨-, -, -, hjump⟩ := hlaid
    intro fuel back s σ hs hm
    have hstep := Holds.jump (hs ▸ hjump) (hl l rfl exit)
    exact .of_silent (.single hstep) rfl rfl fun _ => hm
  | none =>
    obtain ⟨-, -, -, line, herrors⟩ := hlaid
    rw [hr.no_errors hj] at herrors
    exact absurd (congrArg Array.size herrors) (by simp)

/-- **What is shown of a block** from its first mark on. -/
def BlockDoes (tr : Trace E w) (p : Program) (c : Config) (f? : Option FunctionInfo)
    (inLoop : Bool) (body : Block) (l? : Option Loop) (n m : Nat) (bodies : List Body) : Prop :=
  Span w n m (blockMarks body) ∧ Fit E f? inLoop (tr.state n) ∧
    Does tr p c f? l? n m (fun b fuel => blockRun fuel body b) (blockRoutines body) bodies

/-- **An `if` with no other branch.** -/
theorem does_ifThen (test : Relation) (body : Block) (hplain : test.isPlain = true)
    (h : Span w i j (Statement.ifThen test body).marks)
    (hlies : IfThenLies tr p test (BlockDoes tr p c f? inLoop body l?) i j bodies) :
    Does tr p c f? l? i j (fun b fuel => (Statement.ifThen test body).run fuel b)
      (Statement.ifThen test body).routines bodies := by
  intro hl b hb
  obtain ⟨k, n, htests, hslots₁, hslots₂, ⟨-, hg, hdoes⟩, hslots₃, rfl⟩ := hlies
  simp only [Statement.marks, span_cons, span_append, span_nil] at h
  obtain ⟨hread, k', htest, hsave, hcolon, n', -, hact, hend⟩ := h
  obtain rfl : k = k' := by rw [htests.1.eq_add, htest.eq_add]
  obtain rfl : n' = n := by omega
  have hb₁ := tr.agrees_read hread hb
  have hb₂ := tr.agrees_read hcolon
    (tr.agrees_aside hsave rfl (test.agrees hr.toClean hplain htest hb₁))
  have ha := hb₂.apart (hr.settled _ (List.getElem?_eq_some_iff.1 hcolon).1) hg
  obtain ⟨hacts, hroutines⟩ := hdoes hl b hb₂
  refine ⟨fun fuel back s σ hs hm => ?_, hroutines⟩
  refine htests.conforms hr hplain (List.getElem?_eq_some_iff.1 hread).1 hb₁ ha
    (slots_small hr.toInto (List.getElem?_eq_some_iff.1 hact).1) (hs.trans hslots₁.symm) hm
    (fun s' hs' hm' => ?_) fun s' hs' hm' => ?_
  · rw [hslots₃]
    exact hacts fuel back s' σ (hs'.trans hslots₂.symm) hm'
  · exact .of_silent (.refl p s') (congrArg some hs'.symm) rfl fun _ => hm'

/-- **An `if` with two branches.** -/
theorem does_ifElse (test : Relation) (body other : Block) {inFunction : Bool}
    (hplain : test.isPlain = true) (hbody : blockIsPlain body inFunction = true)
    (h : Span w i j (Statement.ifElse test body other).marks)
    (hlies : IfElseLies tr p test (BlockDoes tr p c f? inLoop body l?)
      (BlockDoes tr p c f? inLoop other l?) i j bodies) :
    Does tr p c f? l? i j (fun b fuel => (Statement.ifElse test body other).run fuel b)
      (Statement.ifElse test body other).routines bodies := by
  intro hl b hb
  obtain ⟨k, n, m, bodies₁, bodies₂, rfl, htests, hslots₁, hslots₂, ⟨hspan, hg, hdoes⟩, hjump,
    hslots₃, ⟨-, -, hdoes'⟩, hslots₄, rfl⟩ := hlies
  simp only [Statement.marks, span_cons, span_append, span_nil] at h
  obtain ⟨hread, k', htest, hsave, hcolon, n', hblock, helse, hbranch, hcolon', m', -, hact,
    hend⟩ := h
  obtain rfl : k = k' := by rw [htests.1.eq_add, htest.eq_add]
  obtain rfl : n = n' := by rw [hspan.eq_add, hblock.eq_add]
  obtain rfl : m' = m := by omega
  have hb₁ := tr.agrees_read hread hb
  have hb₂ := tr.agrees_read hcolon
    (tr.agrees_aside hsave rfl (test.agrees hr.toClean hplain htest hb₁))
  have hb₃ := tr.agrees_read hcolon' (tr.agrees_aside hbranch rfl
    (tr.agrees_read helse (block_agrees hr.toClean body hbody hblock hb₂)))
  have ha := hb₂.apart (hr.settled _ (List.getElem?_eq_some_iff.1 hcolon).1) hg
  obtain ⟨hacts, hroutines⟩ := hdoes hl b hb₂
  obtain ⟨hacts', hroutines'⟩ := hdoes' hl _ hb₃
  have hbehind := slots_small hr.toInto (List.getElem?_eq_some_iff.1 hact).1
  have hsecond := slots_small hr.toInto (List.getElem?_eq_some_iff.1 hcolon').1
  refine ⟨fun fuel back s σ hs hm => ?_, List.rel_append hroutines hroutines'⟩
  refine htests.conforms hr hplain (List.getElem?_eq_some_iff.1 hread).1 hb₁ ha
    (hslots₃ ▸ hsecond) (hs.trans hslots₁.symm) hm (fun s' hs' hm' => ?_) fun s' hs' hm' => ?_
  -- the first branch ends with a jump around the second
  · refine (hacts fuel back s' σ (hs'.trans hslots₂.symm) hm').fallsTo fun s₁ hs₁ hm₁ => ?_
    have hstep := Holds.jump (hs₁ ▸ hjump) hbehind
    exact ⟨_, .single hstep, rfl, rfl, hm₁⟩
  · rw [hslots₄]
    exact hacts' fuel back s' σ (hs'.trans hslots₃.symm) hm'

/-- **A loop.** -/
theorem does_loop (test : Relation) (body : Block) (hplain : test.isPlain = true)
    (h : Span w i j (Statement.loop test body).marks)
    (hlies : LoopLies tr p test (BlockDoes tr p c f? true body) i j bodies) :
    Does tr p c f? l? i j (fun b fuel => (Statement.loop test body).run fuel b)
      (Statement.loop test body).routines bodies := by
  intro _ b hb
  obtain ⟨k, n, htests, hslots₁, hslots₂, ⟨-, hg, hdoes⟩, hback, hslots₃, rfl⟩ := hlies
  simp only [Statement.marks, span_cons, span_append, span_nil] at h
  obtain ⟨hread, hbegin, hopen, k', htest, hclose, hsave, n', -, hact, hend⟩ := h
  obtain rfl : k = k' := by rw [htests.1.eq_add, htest.eq_add]
  obtain rfl : n' = n := by omega
  have hk : c.keywords.contains loopKeyword = true := hr.keywords ▸ tr.reserved hbegin
  have hb₁ := tr.agrees_read hopen
    (tr.of_ends hbegin ((tr.agrees_read hread hb).startLoop (hr.settled_of hbegin) hk))
  have hb₂ := tr.agrees_aside hsave rfl
    (tr.agrees_read hclose (test.agrees hr.toClean hplain htest hb₁))
  have ha := hb₂.apart (hr.settled _ (List.getElem?_eq_some_iff.1 hsave).1) hg
  have hstart := slots_small hr.toInto (Nat.le_of_lt (List.getElem?_eq_some_iff.1 hread).1)
  have hbehind := slots_small hr.toInto (List.getElem?_eq_some_iff.1 hact).1
  have htargets : ∀ l : Loop, some ⟨tr.slots i, tr.slots (n' + 1)⟩ = some l →
      ∀ exit, l.target exit < 2 ^ 63 := by
    rintro _ ⟨⟩ exit
    cases exit
    · exact hbehind
    · exact hstart
  obtain ⟨hacts, hroutines⟩ := hdoes htargets _ hb₂
  refine ⟨fun fuel back s σ hs hm => ?_, hroutines⟩
  refine turns_conform ?_ (hacts fuel back) hback hstart fuel (Nat.le_refl _) s σ hs hm
  intro s σ hs hm
  rw [hslots₂]
  exact htests.branches hr hplain (List.getElem?_eq_some_iff.1 hopen).1 hb₁ ha hbehind
    (hs.trans hslots₁.symm) hm

/-- **A definition** is passed over. -/
theorem does_define (x : String) (params : List String) (body : Block)
    (h : Span w i j (Statement.define x params body).marks)
    (hlies : DefinitionLies tr p body
      (fun f => BlockDoes tr p c (some f) false body none) i j bodies) :
    Does tr p c f? l? i j (fun b fuel => (Statement.define x params body).run fuel b)
      (Statement.define x params body).routines bodies := by
  intro _ b hb
  obtain ⟨f, n, m, inner, rfl, -, rfl, haround, -, hslots, ⟨hspan, hg, hdoes⟩, htail, -⟩ := hlies
  obtain ⟨n', hbody, hb₁, hheaded⟩ := header_agrees hr.toClean h hb
  simp only [Statement.marks, span_cons] at h
  have hread := h.1
  obtain rfl : n' = n := by
    have hlength := hbody.eq_add
    rw [hspan.eq_add, List.length_append, List.length_cons, List.length_singleton] at hlength
    omega
  obtain ⟨hacts, hroutines⟩ := hdoes (fun _ hc => by cases hc) _ hb₁
  simp only [span_cons, span_append, span_nil] at hbody
  obtain ⟨m', -, hend, hretire, hlast⟩ := hbody
  obtain rfl : m' = m := by omega
  have hbehind := slots_small hr.toInto (List.getElem?_eq_some_iff.1 hretire).1
  refine ⟨fun fuel back s σ hs hm => ?_, .cons ?_ hroutines⟩
  · have hstep : step? p s = some (s.goTo (tr.slots (m' + 2))) :=
      Holds.jump (hs ▸ haround) hbehind
    exact .of_silent (.single hstep) rfl rfl fun _ => hm
  · have hle : n' ≤ w.length := by
      have hm := (List.getElem?_eq_some_iff.1 hend).1
      have hn := span_le hspan
      omega
    have hsettled := hr.settled n' hle
    -- the innermost definition is that of the function
    obtain ⟨d, rest, f', hdefs, -, hf', hbare⟩ := hg.definition
    obtain ⟨d', rest', hdefs', hnamed⟩ := hheaded
    obtain ⟨rfl, -⟩ := List.cons.inj (hdefs.symm.trans hdefs')
    obtain ⟨_, _, _, hkept⟩ := hsettled.kept
    refine ⟨d.row, n', m', m' + 2, ?_⟩
    exact
      { mark := hle
        named := hnamed
        lives := lives_of_nesting hkept.nesting d (hdefs ▸ List.mem_cons_self)
        function := ⟨f', hf', hbare⟩
        apart := hb₁.apart hsettled hg
        start := hslots.symm
        acts := hacts
        leaves := fun hreturns => by
          rw [if_neg (by simp [hreturns])] at htail
          exact htail }

mutual

/-- **Every statement does what it says.** -/
theorem Statement.does : ∀ (s : Statement) {inFunction : Bool} {i j : Nat}
    {f? : Option FunctionInfo} {inLoop : Bool}, s.isPlain inFunction = true →
    (inFunction = true → f?.isSome) → Span w i j s.marks → Fit E f? inLoop (tr.state i) →
      Lands tr p inLoop i j s.returns (s.strays inLoop)
        fun l? => Does tr p c f? l? i j (fun b fuel => s.run fuel b) s.routines
  | .assign x (.value e), _, i, j, f?, inLoop, hplain, _, h, hg => by
    refine (lands_simple hr.toInto rfl h hg).mono ?_
    rintro l? _ ⟨rfl, -⟩ _ b hb
    exact ⟨acts_assign hr x e hplain h hb hg, .nil⟩
  | .print e, _, i, j, f?, inLoop, hplain, _, h, hg => by
    refine (lands_simple hr.toInto rfl h hg).mono ?_
    rintro l? _ ⟨rfl, -⟩ _ b hb
    exact ⟨acts_print hr e hplain h hb hg, .nil⟩
  | .global x, _, i, j, f?, inLoop, _, _, h, hg => by
    refine (lands_simple hr.toInto rfl h hg).mono ?_
    rintro l? _ ⟨rfl, -⟩ _ b hb
    exact ⟨acts_nothing (slots_global x h) fun _ _ => rfl, .nil⟩
  | .returnValue e, _, i, j, f?, inLoop, hplain, hf, h, hg => by
    obtain ⟨hin, hplain⟩ := Bool.and_eq_true_iff.1 hplain
    obtain ⟨f, rfl⟩ := Option.isSome_iff_exists.1 (hf hin)
    refine (lands_returnValue hr.toInto e h hg).mono fun l? bodies hlaid _ b hb => ?_
    obtain rfl := hlaid.1
    exact ⟨acts_returnValue hr e hplain h hb hg hlaid, .nil⟩
  | .returnNothing, _, i, j, f?, inLoop, hplain, hf, h, hg => by
    obtain ⟨f, rfl⟩ := Option.isSome_iff_exists.1 (hf hplain)
    refine (lands_returnNothing hr.toInto h hg).mono fun l? bodies hlaid _ b hb => ?_
    obtain rfl := hlaid.1
    exact ⟨acts_returnNothing hr h hb hg hlaid, .nil⟩
  | .leave exit, _, i, j, f?, inLoop, _, _, h, hg => by
    have hj : j ≤ w.length := by
      obtain ⟨-, hact, rfl⟩ := h
      exact (List.getElem?_eq_some_iff.1 hact).1
    refine (lands_leave exit h hg).mono fun l? bodies hlaid hl b hb => ?_
    have hbodies : bodies = [] := by
      cases l? <;> exact hlaid.1
    subst hbodies
    exact ⟨acts_leave hr exit hj hl hlaid, .nil⟩
  | .define x params body, _, i, j, f?, inLoop, hplain, _, h, hg =>
    (lands_define hr.toInto x params body h hg fun f =>
      block_does body hplain fun _ => rfl).mono fun _ _ => does_define hr x params body h
  | .ifThen test body, _, i, j, f?, inLoop, hplain, hf, h, hg => by
    obtain ⟨htest, hbody⟩ := Bool.and_eq_true_iff.1 hplain
    exact (lands_ifThen hr.toInto test body h hg (block_does body hbody hf)).mono
      fun _ _ => does_ifThen hr test body htest h
  | .ifElse test body other, _, i, j, f?, inLoop, hplain, hf, h, hg => by
    obtain ⟨hplain, hother⟩ := Bool.and_eq_true_iff.1 hplain
    obtain ⟨htest, hbody⟩ := Bool.and_eq_true_iff.1 hplain
    exact (lands_ifElse hr.toInto test body other h hg (block_does body hbody hf)
      (block_does other hother hf)).mono fun _ _ => does_ifElse hr test body other htest hbody h
  | .loop test body, _, i, j, f?, inLoop, hplain, hf, h, hg => by
    obtain ⟨htest, hbody⟩ := Bool.and_eq_true_iff.1 hplain
    exact (lands_loop hr.toInto test body h hg (block_does body hbody hf)).mono
      fun _ _ => does_loop hr test body htest h

/-- **Every block does what it says.** -/
theorem block_does : ∀ (body : List Statement) {inFunction : Bool} {f? : Option FunctionInfo}
    {inLoop : Bool}, blockIsPlain body inFunction = true → (inFunction = true → f?.isSome) →
      BlockLands tr p f? inLoop body (BlockDoes tr p c f? inLoop body)
  | [], _, f?, inLoop, _, _, n, m, h, hg => by
    obtain rfl : n = m := h
    refine (lands_nothing hg).mono ?_
    rintro l? _ rfl
    exact ⟨rfl, hg, fun _ b _ => ⟨acts_nothing rfl fun _ _ => rfl, .nil⟩⟩
  | s :: rest, _, f?, inLoop, hplain, hf, n, m, h, hg => by
    have hspan := h
    obtain ⟨hs, hrest⟩ := Bool.and_eq_true_iff.1 hplain
    simp only [blockMarks, span_append, span_cons] at h
    obtain ⟨k, h₁, hread, h₂⟩ := h
    refine ((Statement.does s hs hf h₁ hg).cons hread hg (block_does rest hrest hf h₂)).mono ?_
    rintro l? _ ⟨bodies, bodies', rfl, hdoes, -, hg', hdoes'⟩
    refine ⟨hspan, hg, fun hl b hb => ?_⟩
    have hb₁ := tr.agrees_read hread (s.agrees hr.toClean hs h₁ hb)
    obtain ⟨hacts, hroutines⟩ := hdoes hl b hb
    obtain ⟨hacts', hroutines'⟩ := hdoes' hl _ hb₁
    refine ⟨fun fuel back st σ hst hm => ?_, List.rel_append hroutines hroutines'⟩
    exact (hacts fuel back st σ hst hm).andThen fun s' hs' hm' =>
      hacts' fuel back s' _ (hs'.trans (tr.slots_read hread).symm) hm'

end

end Runnable

end Acts

end OnePass.Syntax
