import OnePass.Proofs.Emission.Events
import OnePass.Proofs.Syntax.Defining

/-!
# Statements are laid out in the program

By induction on a statement: its marks pass from a fit state to a fit state, and once the
jumps that wait for a loop outside are filled, the statement lies in the program.

* `Trace.Into`: the program that a derivation comes to.
* `Lands`: what is shown of a statement, and of a block. `block_lands`: it holds.
* `fit_begun`: a derivation begins in a fit state. `exists_laid`: the program of a text.
-/

namespace OnePass.Derivation

open Emission Names Target
open Grammar (Action Mark Terminal counted)

/-- **A program that a derivation comes to,** perhaps with more behind it. It can be addressed, and
there are fewer arguments than words. -/
structure Trace.Into {E : Setting} {w : List Mark} (tr : Trace E w) (p : Program) : Prop where
  orderly : (tr.state 0).symbols.Orderly
  start : ∀ row, (tr.state 0).symbols.function? row = none
  counted : counted w < 2 ^ 63
  small : p.size < 2 ^ 63
  program : Extends (fun _ => True) (tr.state w.length).memory.program p

namespace Trace

variable {E : Setting} {w v : List Mark} {tr : Trace E w} {p : Program} {i j k : Nat}
  {t : Terminal} {x : String} {a : Action} {m : Mark} {c : Instruction}

theorem Into.extends (hp : tr.Into p) (hk : k ≤ w.length) :
    Extends (fun _ => True) (tr.state k).memory.program p :=
  (tr.extends_le hk (Nat.le_refl _)).trans hp.program

/-- What stands behind a mark stands in the end. -/
theorem Into.holds (hp : tr.Into p) (hm : w[i]? = some m)
    (h : Holds (tr.state (i + 1)).memory.program k c) : Holds p k c :=
  (hp.extends (List.getElem?_eq_some_iff.1 hm).1).kept _ _ h

/-- What a mark does to the table. -/
theorem turns (tr : Trace E w) (hi : i < w.length) (h : (tr.state i).symbols.Orderly) :
    (tr.state i).symbols.Turns (tr.slots i) (tr.state (i + 1)).symbols := by
  rcases hk : w[i] with ⟨t, x⟩ | a
  · have hquiet := tr.quiet_read (List.getElem?_eq_some_iff.2 ⟨hi, hk⟩)
    exact .of_longer h hquiet.rows hquiet.scopes hquiet.functions
  · have hact := List.getElem?_eq_some_iff.2 ⟨hi, hk⟩
    exact tr.of_ends hact (turns_perform h (tr.bindable hact))

theorem Into.ordered (hp : tr.Into p) (hi : i ≤ w.length) : (tr.state i).symbols.Orderly := by
  induction i with
  | zero => exact hp.orderly
  | succ i ih => exact (tr.turns hi (ih (Nat.le_of_lt hi))).orderly

/-- **The state at a later mark** comes after that at the mark. -/
theorem Into.later (hp : tr.Into p) (hij : i ≤ j) (hj : j ≤ w.length) :
    Later (tr.state i) (tr.state j) := by
  induction hij with
  | refl => exact .refl _
  | @step k hk ih =>
    have hle := Nat.le_of_lt hj
    exact (ih hle).trans (.of_turns (tr.turns hj (hp.ordered hle)) (tr.extends_step hj).size)

/-- No function begins in what comes behind. -/
theorem Into.start_le (hp : tr.Into p) (hi : i ≤ w.length) {row : Nat} {f : FunctionInfo}
    (hf : (tr.state i).symbols.function? row = some f) : f.start ≤ (tr.state i).programNext := by
  rcases (hp.later (Nat.zero_le i) hi).made row f hf with ⟨f₀, hf₀, -⟩ | ⟨-, hle⟩
  · rw [hp.start] at hf₀
    cases hf₀
  · exact hle

theorem Into.slots_lt (hp : tr.Into p) (hm : w[i]? = some m) : tr.slots i < 2 ^ 63 := by
  have hlt := (List.getElem?_eq_some_iff.1 hm).1
  exact Nat.lt_of_le_of_lt (hp.extends (Nat.le_of_lt hlt)).size hp.small

theorem slots_eq (tr : Trace E w) (i : Nat) : tr.slots i = (tr.state i).memory.program.size := rfl

theorem slots_read (h : w[i]? = some (.read t x)) : tr.slots (i + 1) = tr.slots i := by
  rw [slots, Generator.programNext, tr.memory_read h]
  rfl

theorem strays_read (h : w[i]? = some (.read t x)) :
    (tr.state (i + 1)).strays = (tr.state i).strays := by
  rw [Generator.strays, tr.errors_read h]
  rfl

theorem strays_act (h : w[i]? = some (.act a)) (hb : a ≠ .breakLoop) (hc : a ≠ .continueLoop) :
    (tr.state (i + 1)).strays = (tr.state i).strays :=
  tr.of_ends h (strays_perform hb hc _ _ _)

theorem strays_computing (h : Span w i j v) (hv : Computing v) :
    (tr.state j).strays = (tr.state i).strays := by
  induction v generalizing i with
  | nil =>
    obtain rfl : i = j := h
    rfl
  | cons k v ih =>
    cases k with
    | read t x => exact (ih h.2 (computing_read.1 hv)).trans (tr.strays_read h.1)
    | act a =>
      obtain ⟨ha, hv⟩ := computing_act.1 hv
      refine (ih h.2 hv).trans (tr.strays_act h.1 ?_ ?_)
      · rintro rfl
        cases ha
      · rintro rfl
        cases ha

end Trace

end OnePass.Derivation

namespace OnePass.Syntax

open OnePass.Derivation Emission Names Target
open Grammar (Action Mark Terminal counted)

section Lands

variable {E : Setting} {w : List Mark} (tr : Trace E w) (p : Program)

/-- **What is shown of a statement or a block** between two marks: it passes, and it lies in the
program once the jumps that wait for a loop outside are filled. -/
def Lands (inLoop : Bool) (i j : Nat) (returns : Bool) (strays : List SemanticFault)
    (laid : Option Loop → List Body → Prop) : Prop :=
  ∃ waiting bodies, Passes E returns waiting bodies strays (tr.state i) (tr.state j) ∧
    (inLoop = false → waiting = .none) ∧
    ∀ l? : Option Loop, l?.isSome = inLoop →
      (∀ l, l? = some l → ∀ e, ∀ k ∈ waiting e, Holds p k (.jump (l.target e))) → laid l? bodies

end Lands

section Statements

variable {E : Setting} {w : List Mark} {tr : Trace E w} {p : Program} {i j : Nat}
  {f? : Option FunctionInfo} {inLoop : Bool}

/-- A token passes. -/
theorem passes_read {t : Terminal} {x : String} (h : w[i]? = some (.read t x))
    (hg : Fit E f? inLoop (tr.state i)) :
    Passes E false .none [] [] (tr.state i) (tr.state (i + 1)) :=
  passes_quiet (tr.quiet_read h) hg (tr.stack_read h) (tr.strays_read h)

/-- A token behind what passes. -/
theorem Passes.read {g : Generator} {returns : Bool} {waiting : Waiting} {bodies : List Body}
    {strays : List SemanticFault} {t : Terminal} {x : String}
    (h : Passes E returns waiting bodies strays g (tr.state i)) (hread : w[i]? = some (.read t x))
    (hg : Fit E f? inLoop g) : Passes E returns waiting bodies strays g (tr.state (i + 1)) := by
  have h' := h.trans (passes_read hread (hg.passes h))
  rwa [Bool.or_false, Waiting.append_none, List.append_nil, List.append_nil] at h'

theorem Lands.mono {returns : Bool} {strays : List SemanticFault}
    {laid laid' : Option Loop → List Body → Prop} (h : Lands tr p inLoop i j returns strays laid)
    (hlaid : ∀ l? bodies, laid l? bodies → laid' l? bodies) :
    Lands tr p inLoop i j returns strays laid' := by
  obtain ⟨waiting, bodies, hpasses, hnone, hall⟩ := h
  exact ⟨waiting, bodies, hpasses, hnone, fun l? hl hwait => hlaid l? bodies (hall l? hl hwait)⟩

/-- Where there is nothing, nothing lies. -/
theorem lands_nothing (hg : Fit E f? inLoop (tr.state i)) :
    Lands tr p inLoop i i false [] fun _ bodies => bodies = [] :=
  ⟨.none, [], passes_quiet (.refl E _) hg rfl rfl, fun _ => rfl, fun _ _ _ => rfl⟩

/-- **One thing behind the other,** with a token between them. -/
theorem Lands.cons {n : Nat} {t : Terminal} {x : String} {returns returns' : Bool}
    {strays strays' : List SemanticFault} {laid laid' : Option Loop → List Body → Prop}
    (h : Lands tr p inLoop i n returns strays laid) (hread : w[n]? = some (.read t x))
    (hg : Fit E f? inLoop (tr.state i))
    (h' : Fit E f? inLoop (tr.state (n + 1)) → Lands tr p inLoop (n + 1) j returns' strays' laid') :
    Lands tr p inLoop i j (returns || returns') (strays ++ strays') fun l? bodies =>
      ∃ bodies₁ bodies₂, bodies = bodies₁ ++ bodies₂ ∧ laid l? bodies₁ ∧ laid' l? bodies₂ := by
  obtain ⟨waiting, bodies, hpasses, hnone, hlaid⟩ := h
  have hpasses := hpasses.read hread hg
  obtain ⟨waiting', bodies', hpasses', hnone', hlaid'⟩ := h' (hg.passes hpasses)
  refine ⟨_, _, hpasses.trans hpasses', fun hl => ?_, fun l? hl hwait => ?_⟩
  · rw [hnone hl, hnone' hl]
    rfl
  · exact ⟨bodies, bodies', rfl,
      hlaid l? hl fun l hl' e k hk => hwait l hl' e k (List.mem_append_left _ hk),
      hlaid' l? hl fun l hl' e k hk => hwait l hl' e k (List.mem_append_right _ hk)⟩

/-- **A statement that only computes.** -/
theorem lands_simple (hp : tr.Into p) {s : Statement} (hs : s.isSimple = true)
    (h : Span w i j s.marks) (hg : Fit E f? inLoop (tr.state i)) :
    Lands tr p inLoop i j s.returns (s.strays inLoop) fun l? => s.Laid tr p f? l? i j := by
  have hpasses : Passes E false .none [] [] (tr.state i) (tr.state j) :=
    passes_quiet (tr.quiet h (Statement.computing hs)) hg
      (Statement.stack_eq tr hp.counted hs h) (tr.strays_computing h (Statement.computing hs))
  cases s with
  | assign | assignElement | call | global | print =>
    exact ⟨_, _, hpasses, fun _ => rfl, fun _ _ _ => ⟨rfl, h⟩⟩
  | _ => cases hs

/-- How the record keeps a jump out of a turn of a loop. -/
def Exit.add : Exit → LoopRecord → Nat → LoopRecord
  | .breaks => LoopRecord.addBreak
  | .continues => LoopRecord.addContinue

theorem perform_exit (exit : Exit) (lexeme : String) (line : Nat) :
    perform exit.action lexeme line = leaveLoop line exit.fault exit.add := by
  cases exit <;> rfl

theorem awaiting_one (r : LoopRecord) (exit : Exit) (slot : Nat) :
    awaiting r (.one exit slot) = exit.add r slot := by
  cases exit <;> simp [awaiting, Waiting.one, Exit.add, LoopRecord.addBreak, LoopRecord.addContinue]

theorem isStray_fault (exit : Exit) : isStray exit.fault = true := by cases exit <;> rfl

/-- **A break or a continue.** -/
theorem lands_leave (exit : Exit) (h : Span w i j (Statement.leave exit).marks)
    (hg : Fit E f? inLoop (tr.state i)) :
    Lands tr p inLoop i j false ((Statement.leave exit).strays inLoop)
      fun l? => (Statement.leave exit).Laid tr p f? l? i j := by
  have hspan := h
  simp only [Statement.marks, span_cons, span_nil] at h
  obtain ⟨hread, hact, rfl⟩ := h
  have hfirst := passes_read hread hg
  have hg₁ := hg.passes hfirst
  have hacts := (tr.acts hact).1
  rw [perform_exit] at hacts
  cases inLoop with
  | true =>
    obtain ⟨r, hr⟩ := hg₁.records
    have hk := hg.reserved rfl
    obtain ⟨t, heq, ht⟩ := ends_leaveLoop_eq hg₁.rooted (loops?_of_records hk hr) hg₁.isLoop _ _ hacts
    have hslot : (tr.state (i + 1)).programNext = (tr.state i).programNext := tr.slots_read hread
    have hpasses : Passes E false (.one exit (tr.state (i + 1)).programNext) [] []
        (tr.state (i + 1)) (tr.state (i + 1 + 1)) := by
      rw [heq]
      exact
        { table := keeps_recorded ht
          current := congrArg Scopes.current ht.scopes
          records := fun r' hr' => by
            have hsame : r' = r := Option.some.inj
              ((loops?_of_records hk hr').symm.trans (loops?_of_records hk hr))
            rw [hsame, awaiting_one]
            exact records_of_loops?_eq hk ht.loops
          definitions := by rw [noting_false]; rfl
          stack := rfl
          safe := fun row hrow => .inl (by rwa [← ht.functions])
          made := fun row f hf => .inl ⟨f, by rwa [← ht.functions], rfl⟩
          program := lengthens_wait _ exit
          strays := (List.append_nil _).symm }
    refine ⟨_, _, hfirst.trans hpasses, fun hc => (by cases hc), fun l? hl hwait => ?_⟩
    obtain ⟨l, rfl⟩ := Option.isSome_iff_exists.1 hl
    refine ⟨rfl, hspan, ?_, hwait l rfl exit _ ?_⟩
    · rw [Trace.slots, heq]
      exact ((tr.state (i + 1)).programNext_append none).trans (congrArg (· + 1) hslot)
    · rw [Waiting.none_append, hslot]
      simp [Waiting.one, Trace.slots]
  | false =>
    have heq := ends_leaveLoop_stray hg₁.isLoop _ _ hacts
    have hpasses : Passes E false .none [] [exit.fault] (tr.state (i + 1)) (tr.state (i + 1 + 1)) := by
      rw [heq]
      exact
        { table := .refl E _
          current := rfl
          records := fun r hr => by rwa [awaiting_none]
          definitions := by rw [noting_false]; rfl
          stack := rfl
          safe := fun _ hrow => .inl hrow
          made := fun _ f hf => .inl ⟨f, hf, rfl⟩
          program := lengthens_refl _
          strays := strays_report (isStray_fault exit) }
    refine ⟨_, _, hfirst.trans hpasses, fun _ => rfl, fun l? hl _ => ?_⟩
    obtain rfl := Option.not_isSome_iff_eq_none.1 (Bool.eq_false_iff.1 hl)
    refine ⟨rfl, hspan, ?_, tr.line (i + 1), ?_⟩
    · rw [Trace.slots, heq]
      exact tr.slots_read hread
    · rw [heq, Generator.report, tr.errors_read hread]

/-- **A return with a value.** -/
theorem lands_returnValue (hp : tr.Into p) (e : Expr)
    (h : Span w i j (Statement.returnValue e).marks) (hg : Fit E f? inLoop (tr.state i)) :
    Lands tr p inLoop i j true [] fun l? => (Statement.returnValue e).Laid tr p f? l? i j := by
  simp only [Statement.marks, span_cons, span_append, span_nil] at h
  obtain ⟨hread, n, he, hact, rfl⟩ := h
  obtain ⟨value, hvalue⟩ := e.pushes tr hp.counted he
  rw [tr.stack_read hread] at hvalue
  have hquiet := (tr.quiet_read hread).trans (tr.quiet he e.computing)
  have hstrays := (tr.strays_computing he e.computing).trans (tr.strays_read hread)
  cases f? with
  | some f =>
    obtain ⟨hpasses, hprogram⟩ :=
      tr.of_ends hact (passes_returnWith hg hquiet hvalue hstrays _ _)
    refine ⟨_, _, hpasses, fun _ => rfl, fun l? _ _ => ?_⟩
    obtain ⟨hassign, hjump⟩ := holds_push_push (tr.state n).memory.program
      (.assign value (.direct f.result)) (.jumpThrough f.returnCell)
    rw [← hprogram] at hassign hjump
    refine ⟨rfl, n, value, _, he, hvalue, tr.slots_read hread, rfl, hp.holds hact hassign,
      hp.holds hact hjump, ?_⟩
    rw [tr.slots_eq, tr.slots_eq, hprogram, Array.size_push, Array.size_push]
  | none =>
    obtain ⟨hpasses, hprogram⟩ :=
      tr.of_ends hact (passes_returnWith_none hg hquiet hvalue hstrays _ _)
    refine ⟨_, _, hpasses, fun _ => rfl, fun l? _ _ => ?_⟩
    refine ⟨rfl, n, value, _, he, hvalue, tr.slots_read hread, rfl, ?_⟩
    rw [tr.slots_eq, tr.slots_eq, hprogram]

/-- **A return without a value.** -/
theorem lands_returnNothing (hp : tr.Into p) (h : Span w i j Statement.returnNothing.marks)
    (hg : Fit E f? inLoop (tr.state i)) :
    Lands tr p inLoop i j true [] fun l? => Statement.returnNothing.Laid tr p f? l? i j := by
  have hspan := h
  simp only [Statement.marks, span_cons, span_nil] at h
  obtain ⟨hread, hact, rfl⟩ := h
  have hfirst := passes_read hread hg
  have hg₁ := hg.passes hfirst
  have hslots := tr.slots_read hread
  cases f? with
  | some f =>
    obtain ⟨hpasses, hprogram⟩ := tr.of_ends hact (passes_returnNothing hg₁ _ _)
    refine ⟨_, _, hfirst.trans hpasses, fun _ => rfl, fun l? _ _ => ⟨rfl, hspan, ?_, ?_⟩⟩
    · refine hp.holds hact ?_
      rw [hprogram, ← hslots]
      exact holds_push _ _
    · rw [← hslots, tr.slots_eq, tr.slots_eq, hprogram, Array.size_push]
  | none =>
    obtain ⟨hpasses, hprogram⟩ := tr.of_ends hact (passes_returnNothing_none hg₁ _ _)
    refine ⟨_, _, hfirst.trans hpasses, fun _ => rfl, fun l? _ _ => ⟨rfl, hspan, ?_⟩⟩
    rw [← hslots, tr.slots_eq, tr.slots_eq, hprogram]

/-- What is shown of a block, wherever its marks stand. -/
def BlockLands (tr : Trace E w) (p : Program) (f? : Option FunctionInfo) (inLoop : Bool)
    (b : Block) (laid : Option Loop → Nat → Nat → List Body → Prop) : Prop :=
  ∀ {n m : Nat}, Span w n m (blockMarks b) → Fit E f? inLoop (tr.state n) →
    Lands tr p inLoop n m (returnsFrom b) (blockStrays b inLoop) fun l? => laid l? n m

section Around

variable {laid laid' : Option Loop → Nat → Nat → List Body → Prop}

/-- How an `if` with no other branch lies around its body. -/
def IfThenLies (tr : Trace E w) (p : Program) (test : Relation)
    (laid : Nat → Nat → List Body → Prop) (i j : Nat) (bodies : List Body) : Prop :=
  ∃ c n, Tests tr p (i + 1) c test (tr.slots j) ∧ tr.slots (i + 1) = tr.slots i ∧
    tr.slots (c + 2) = tr.slots c + 1 ∧ laid (c + 2) n bodies ∧ tr.slots j = tr.slots n ∧ j = n + 1

/-- How an `if` with two branches lies around them. -/
def IfElseLies (tr : Trace E w) (p : Program) (test : Relation)
    (laid laid' : Nat → Nat → List Body → Prop) (i j : Nat) (bodies : List Body) : Prop :=
  ∃ c n m bodies₁ bodies₂, bodies = bodies₁ ++ bodies₂ ∧
    Tests tr p (i + 1) c test (tr.slots n + 1) ∧ tr.slots (i + 1) = tr.slots i ∧
    tr.slots (c + 2) = tr.slots c + 1 ∧ laid (c + 2) n bodies₁ ∧
    Holds p (tr.slots n) (.jump (tr.slots j)) ∧ tr.slots (n + 3) = tr.slots n + 1 ∧
    laid' (n + 3) m bodies₂ ∧ tr.slots j = tr.slots m ∧ j = m + 1

/-- How a loop lies around its body. -/
def LoopLies (tr : Trace E w) (p : Program) (test : Relation)
    (laid : Option Loop → Nat → Nat → List Body → Prop) (i j : Nat) (bodies : List Body) : Prop :=
  ∃ c n, Tests tr p (i + 3) c test (tr.slots j) ∧ tr.slots (i + 3) = tr.slots i ∧
    tr.slots (c + 2) = tr.slots c + 1 ∧
    laid (some ⟨tr.slots i, tr.slots j⟩) (c + 2) n bodies ∧
    Holds p (tr.slots n) (.jump (tr.slots i)) ∧ tr.slots j = tr.slots n + 1 ∧ j = n + 1

/-- How a definition lies around the body of its function. -/
def DefinitionLies (tr : Trace E w) (p : Program) (body : Block)
    (laid : FunctionInfo → Nat → Nat → List Body → Prop) (i j : Nat) (bodies : List Body) : Prop :=
  ∃ f n m inner, bodies = ⟨f, tr.slots j⟩ :: inner ∧ i ≤ n ∧ j = m + 2 ∧
    Holds p (tr.slots i) (.jump (tr.slots j)) ∧ f.start = tr.slots i + 1 ∧
    tr.slots n = f.start ∧ laid f n m inner ∧
    (if returnsFrom body then tr.slots j = tr.slots m
      else LeavesWith tr p m j f (.immediate 0)) ∧
    ∀ info, (tr.state j).symbols.Visible info → info.start ≤ f.start

/-- **An `if` with no other branch.** -/
theorem lands_ifThen (hp : tr.Into p) (test : Relation) (body : Block)
    (h : Span w i j (Statement.ifThen test body).marks) (hg : Fit E f? inLoop (tr.state i))
    (ih : BlockLands tr p f? inLoop body laid) :
    Lands tr p inLoop i j false (blockStrays body inLoop)
      fun l? => IfThenLies tr p test (laid l?) i j := by
  simp only [Statement.marks, span_cons, span_append, span_nil] at h
  obtain ⟨hread, c, htest, hsave, hcolon, n, hbody, hact, rfl⟩ := h
  obtain ⟨o, ho⟩ := test.pushes tr hp.counted htest
  rw [tr.stack_read hread] at ho
  have hquiet := (tr.quiet_read hread).trans (tr.quiet htest test.computing)
  have hstrays := (tr.strays_computing htest test.computing).trans (tr.strays_read hread)
  have hheld : tr.state (c + 1) = (tr.state c).held := tr.of_ends hsave ends_holdSlot_eq
  have hquiet' := tr.quiet_read hcolon
  have hmemory := tr.memory_read hcolon
  have hstack' := tr.stack_read hcolon
  have hstrays' := tr.strays_read hcolon
  rw [hheld] at hquiet' hmemory hstack' hstrays'
  obtain ⟨waiting, bodies, hblock, hnone, hlaid⟩ :=
    ih hbody ((hg.quiet hquiet).held.quiet hquiet')
  -- the slot lies on the stack where the block ends
  have hstack : (tr.state n).stack =
      .immediate (Operand.word (tr.slots c)) :: o :: (tr.state i).stack := by
    rw [hblock.stack, hstack', ← ho]
    rfl
  have hend := tr.of_ends hact (ends_settleCondition_eq hstack (hp.slots_lt hsave))
  obtain ⟨hpasses, hholds⟩ := passes_held hg hquiet hstrays hquiet' hmemory hstrays' hblock
    (.jumpIfFalse o ((tr.state n).programNext + 0))
  have hend' : (tr.state (n + 1)).memory.program = settled (tr.state n).memory.program
      (tr.state c).programNext (.jumpIfFalse o ((tr.state n).programNext + 0)) := by
    rw [hend]
    rfl
  have hslots : tr.slots (n + 1) = tr.slots n := by
    rw [tr.slots_eq, hend', size_settled]
    rfl
  rw [← hend'] at hholds
  refine ⟨waiting, bodies, hend ▸ hpasses, hnone, fun l? hl hwait => ?_⟩
  refine ⟨c, n, ⟨htest, o, _, ho, ?_⟩, tr.slots_read hread, ?_, hlaid l? hl hwait, hslots, rfl⟩
  · rw [hslots]
    exact hp.holds hact hholds
  · rw [tr.slots_eq, hmemory]
    exact Array.size_push _

/-- **An `if` with two branches.** -/
theorem lands_ifElse (hp : tr.Into p) (test : Relation) (body other : Block)
    (h : Span w i j (Statement.ifElse test body other).marks) (hg : Fit E f? inLoop (tr.state i))
    (ih : BlockLands tr p f? inLoop body laid) (ih' : BlockLands tr p f? inLoop other laid') :
    Lands tr p inLoop i j false (blockStrays body inLoop ++ blockStrays other inLoop)
      fun l? => IfElseLies tr p test (laid l?) (laid' l?) i j := by
  simp only [Statement.marks, span_cons, span_append, span_nil] at h
  obtain ⟨hread, c, htest, hsave, hcolon, n, hbody, helse, hact, hcolon', m, hother, hjump, rfl⟩ := h
  obtain ⟨o, ho⟩ := test.pushes tr hp.counted htest
  rw [tr.stack_read hread] at ho
  have hquiet := (tr.quiet_read hread).trans (tr.quiet htest test.computing)
  have hstrays := (tr.strays_computing htest test.computing).trans (tr.strays_read hread)
  have hheld : tr.state (c + 1) = (tr.state c).held := tr.of_ends hsave ends_holdSlot_eq
  have hquiet' := tr.quiet_read hcolon
  have hmemory := tr.memory_read hcolon
  have hstack' := tr.stack_read hcolon
  have hstrays' := tr.strays_read hcolon
  rw [hheld] at hquiet' hmemory hstack' hstrays'
  have hg₁ := (hg.quiet hquiet).held.quiet hquiet'
  obtain ⟨waiting, bodies, hblock, hnone, hlaid⟩ := ih hbody hg₁
  have hblock' := hblock.read helse hg₁
  have hstack : (tr.state (n + 1)).stack =
      .immediate (Operand.word (tr.slots c)) :: o :: (tr.state i).stack := by
    rw [hblock'.stack, hstack', ← ho]
    rfl
  -- the condition's slot is filled, and one for the end of the first branch is held
  have hend := tr.of_ends hact (ends_startElse_eq hstack (hp.slots_lt hsave))
  obtain ⟨hpasses, hholds⟩ := passes_held hg hquiet hstrays hquiet' hmemory hstrays' hblock'
    (.jumpIfFalse o ((tr.state (n + 1)).programNext + 1))
  generalize hg₂ : ((tr.state (n + 1)).freed (tr.state i).stack).withProgram
    (settled (tr.state (n + 1)).memory.program (tr.slots c)
      (.jumpIfFalse o ((tr.state (n + 1)).programNext + 1))) = g₂ at hend
  have hprogram₂ : g₂.memory.program = settled (tr.state (n + 1)).memory.program (tr.slots c)
      (.jumpIfFalse o ((tr.state (n + 1)).programNext + 1)) := by
    rw [← hg₂]
    rfl
  have hpasses₂ : Passes E false _ _ _ (tr.state i) g₂ := hg₂ ▸ hpasses
  have hnext : g₂.programNext = tr.slots n := by
    have hsize : g₂.memory.program.size = (tr.state (n + 1)).memory.program.size := by
      rw [hprogram₂, size_settled]
    exact hsize.trans (tr.slots_read helse)
  have hquiet₂ := tr.quiet_read hcolon'
  have hmemory₂ := tr.memory_read hcolon'
  have hstack₂ := tr.stack_read hcolon'
  have hstrays₂ := tr.strays_read hcolon'
  rw [hend] at hquiet₂ hmemory₂ hstack₂ hstrays₂
  have hfit₂ := hg.passes hpasses₂
  obtain ⟨waiting', bodies', hblock₂, hnone', hlaid'⟩ := ih' hother (hfit₂.held.quiet hquiet₂)
  have hstack₃ : (tr.state m).stack = .immediate (Operand.word g₂.programNext) :: g₂.stack := by
    rw [hblock₂.stack, hstack₂]
    rfl
  have hlt : g₂.programNext < 2 ^ 63 := by
    rw [hnext]
    exact hp.slots_lt helse
  have hend₂ := tr.of_ends hjump (ends_endElse_eq hstack₃ hlt)
  obtain ⟨hpasses₃, hholds₃⟩ := passes_held hfit₂ (.refl E g₂) rfl hquiet₂ hmemory₂ hstrays₂ hblock₂
    (.jump (tr.state m).programNext)
  have hprogram₃ : (tr.state (m + 1)).memory.program = settled (tr.state m).memory.program
      g₂.programNext (.jump (tr.state m).programNext) := by
    rw [hend₂]
    rfl
  have hslots : tr.slots (m + 1) = tr.slots m := by
    rw [tr.slots_eq, hprogram₃, size_settled]
    rfl
  have hpush₂ : (tr.state (n + 1 + 1)).memory.program = g₂.memory.program.push none := by
    rw [hend]
    rfl
  refine ⟨_, _, hpasses₂.trans (hend₂ ▸ hpasses₃), fun hl => ?_, fun l? hl hwait => ?_⟩
  · rw [hnone hl, hnone' hl]
    rfl
  refine ⟨c, n, m, bodies, bodies', rfl, ⟨htest, o, _, ho, ?_⟩, tr.slots_read hread, ?_,
    hlaid l? hl fun l hl' e k hk => hwait l hl' e k (List.mem_append_left _ hk), ?_, ?_,
    hlaid' l? hl fun l hl' e k hk => hwait l hl' e k (List.mem_append_right _ hk), hslots, rfl⟩
  · have hcondition : Holds (tr.state (n + 1 + 1)).memory.program (tr.slots c)
        (.jumpIfFalse o (tr.slots n + 1)) := by
      rw [hpush₂, hprogram₂]
      have hsame : (tr.state (n + 1)).programNext = tr.slots n := tr.slots_read helse
      rw [hsame] at hholds ⊢
      exact hholds.push none
    exact hp.holds hact hcondition
  · rw [tr.slots_eq, hmemory]
    exact Array.size_push _
  · rw [hslots, ← hnext]
    refine hp.holds hjump ?_
    rw [hprogram₃]
    exact hholds₃
  · rw [tr.slots_eq, hmemory₂]
    have hpush : g₂.held.memory.program.size = g₂.programNext + 1 := Array.size_push _
    rw [hpush, hnext]

/-- **A loop.** -/
theorem lands_loop (hp : tr.Into p) (test : Relation) (body : Block)
    (h : Span w i j (Statement.loop test body).marks) (hg : Fit E f? inLoop (tr.state i))
    (ih : BlockLands tr p f? true body laid) :
    Lands tr p inLoop i j false (blockStrays body true)
      fun _ => LoopLies tr p test laid i j := by
  simp only [Statement.marks, span_cons, span_append, span_nil] at h
  obtain ⟨hread, hbegin, hopen, c, htest, hclose, hsave, n, hbody, hact, rfl⟩ := h
  have hfirst := passes_read hread hg
  have hg₁ := hg.passes hfirst
  have hk := tr.reserved hbegin
  obtain ⟨r, hr⟩ := hg₁.records
  obtain ⟨t, hstart, ht⟩ :=
    tr.of_ends hbegin (ends_startLoop_eq hg₁.rooted (loops?_of_records hk hr))
  have hg₂ := hg₁.enterLoop hk ht
  rw [← hstart] at hg₂
  have hr₂ : E.Records (tr.state (i + 1 + 1)).symbols (r.enter (tr.state (i + 1)).programNext) := by
    rw [hstart]
    refine records_of_loops?_eq hk ((SymbolTable.loops?_enterScope ?_ _).trans ht.loops)
    rw [ht.scopes]
    exact hg₁.rooted
  -- the test, and the slot that is held for its jump
  obtain ⟨o, ho⟩ := test.pushes tr hp.counted htest
  have hquiet := ((tr.quiet_read hopen).trans (tr.quiet htest test.computing)).trans
    (tr.quiet_read hclose)
  have hstrays : (tr.state (c + 1)).strays = (tr.state (i + 1)).strays := by
    rw [tr.strays_read hclose, tr.strays_computing htest test.computing, tr.strays_read hopen,
      tr.strays_act hbegin (by simp) (by simp)]
  have hstack : (tr.state (c + 1)).stack = o :: (tr.state (i + 1)).stack := by
    rw [tr.stack_read hclose, ho, tr.stack_read hopen, hstart]
  have hheld : tr.state (c + 1 + 1) = (tr.state (c + 1)).held := tr.of_ends hsave ends_holdSlot_eq
  have hr₃ : E.Records (tr.state (c + 1 + 1)).symbols
      (r.enter (tr.state (i + 1)).programNext) := by
    rw [hheld]
    exact (hquiet.steady hg₂.rooted hg₂.records).records _ hr₂
  have hg₃ := (hg₂.quiet hquiet).held
  rw [← hheld] at hg₃
  obtain ⟨waiting, bodies, hblock, -, hlaid⟩ := ih hbody hg₃
  -- the end of the loop finds the slot on the stack, and what waits in the record
  have hstack' : (tr.state n).stack =
      .immediate (Operand.word (tr.slots (c + 1))) :: o :: (tr.state (i + 1)).stack := by
    rw [hblock.stack, hheld, ← hstack]
    rfl
  have hr₄ := loops?_of_records hk (hblock.records _ hr₃)
  obtain ⟨t', ht', hend⟩ := tr.of_ends hact (ends_endLoop_eq hstack' (hp.slots_lt hsave)
    (hg₃.passes hblock).rooted hr₄ (leave?_awaiting _ _ _))
  have hpush : (tr.state (c + 1 + 1)).memory.program =
      (tr.state (c + 1)).memory.program.push none := by
    rw [hheld]
    rfl
  have hlengthens := hblock.program
  rw [hpush] at hlengthens
  obtain ⟨hclosed, hcondition, hback, hsize, hwaits⟩ :=
    closedLoop_spec o (tr.state (i + 1)).programNext hlengthens
  have hpasses := passes_loop hg₁ hk hr ht hstart hquiet hstrays (.refl E _) rfl
    (hheld ▸ hblock) ht' _ hclosed
  have hprogram : (tr.state (n + 1)).memory.program = closedLoop (tr.state n).memory.program
      (tr.state (c + 1)).memory.program.size o
      ⟨(tr.state (i + 1)).programNext, waiting .breaks, waiting .continues⟩ := by
    rw [hend]
    rfl
  rw [← hprogram] at hcondition hback hsize hwaits
  have hslots : tr.slots (n + 1) = tr.slots n + 1 := hsize
  have hfirst' : (tr.state (i + 1)).programNext = tr.slots i := tr.slots_read hread
  have hstart' : tr.slots (i + 1 + 1) = tr.slots (i + 1) := by
    rw [tr.slots_eq, hstart]
    rfl
  refine ⟨_, _, hfirst.trans (hend ▸ hpasses), fun _ => rfl, fun l? _ _ => ?_⟩
  refine ⟨c, n, ⟨htest, o, (tr.state (i + 1 + 1 + 1)).stack, ho, ?_⟩, ?_, ?_, ?_, ?_, hslots, rfl⟩
  · have hsame : (tr.state (c + 1)).memory.program.size = tr.slots c := tr.slots_read hclose
    rw [hslots, ← hsame]
    exact hp.holds hact hcondition
  · rw [tr.slots_read hopen, hstart', tr.slots_read hread]
  · rw [tr.slots_eq, hpush, Array.size_push, ← tr.slots_eq, tr.slots_read hclose]
  · refine hlaid _ rfl ?_
    rintro l ⟨⟩ e k hk'
    refine hp.holds hact ?_
    rw [hslots, ← hfirst']
    exact hwaits e k hk'
  · rw [← hfirst']
    exact hp.holds hact hback

end Around

/-- A token between the parameters. -/
theorem Heads.read {g : Generator} {f : FunctionInfo} {row : Nat} {t : Terminal} {x : String}
    (h : Heads E f row g (tr.state i)) (hg : Fit E f? inLoop g)
    (hread : w[i]? = some (.read t x)) : Heads E f row g (tr.state (i + 1)) :=
  h.quiet hg (tr.quiet_read hread) (tr.stack_read hread)
    (congrArg Memory.program (tr.memory_read hread)) (tr.strays_read hread)

/-- A function whose value is not settled yet. -/
theorem FunctionInfo.bare_params {f : FunctionInfo} (h : f.bare = f) (params : List Nat) :
    ({ f with params := params } : FunctionInfo).bare = { f with params := params } := by
  rw [FunctionInfo.bare] at h ⊢
  exact congrArg (fun f : FunctionInfo => { f with params := params }) h

theorem heads_furtherParams {g : Generator} {row : Nat} (hg : Fit E f? inLoop g) :
    ∀ (params : List String) {i j : Nat} {f : FunctionInfo}, Span w i j (furtherParamMarks params) →
      f.bare = f → Heads E f row g (tr.state i) →
        ∃ f', f'.bare = f' ∧ Heads E f' row g (tr.state j)
  | [], i, j, f, h, hbare, hheads => by
    obtain rfl : i = j := h
    exact ⟨f, hbare, hheads⟩
  | x :: rest, i, j, f, h, hbare, hheads => by
    simp only [furtherParamMarks, span_cons] at h
    obtain ⟨hcomma, hname, hact, hrest⟩ := h
    obtain ⟨cell, h'⟩ := tr.of_ends hact
      (((hheads.read hg hcomma).read hg hname).addParameter hg (tr.bindable hact rfl))
    exact heads_furtherParams hg rest hrest (FunctionInfo.bare_params hbare _) h'

/-- **The parameters** go into the header one by one. -/
theorem heads_params {g : Generator} {row : Nat} {f : FunctionInfo} (hg : Fit E f? inLoop g)
    (params : List String) (h : Span w i j (paramMarks params)) (hbare : f.bare = f)
    (hheads : Heads E f row g (tr.state i)) :
    ∃ f', f'.bare = f' ∧ Heads E f' row g (tr.state j) := by
  cases params with
  | nil =>
    obtain rfl : i = j := h
    exact ⟨f, hbare, hheads⟩
  | cons x rest =>
    simp only [paramMarks, span_cons] at h
    obtain ⟨hname, hact, hrest⟩ := h
    obtain ⟨cell, h'⟩ := tr.of_ends hact
      ((hheads.read hg hname).addParameter hg (tr.bindable hact rfl))
    exact heads_furtherParams hg rest hrest (FunctionInfo.bare_params hbare _) h'

/-- A token between the header and the body. -/
theorem Opens.read {g : Generator} {f : FunctionInfo} {row : Nat} {t : Terminal} {x : String}
    (h : Opens E f row g (tr.state i)) (hg : Fit E f? inLoop g)
    (hread : w[i]? = some (.read t x)) : Opens E f row g (tr.state (i + 1)) := by
  have hpasses := passes_read hread (h.fit hg)
  have hquiet := tr.quiet_read hread
  exact
    { table := h.table.trans hpasses.table
      scope := by
        rw [hpasses.current]
        exact hpasses.table.scopes _ _ _ h.scope
      records := fun r hr => by
        have h' := hpasses.records r (h.records r hr)
        rwa [awaiting_none] at h'
      definitions := by rw [hquiet.definitions, h.definitions, hpasses.current]
      stack := hpasses.stack.trans h.stack
      function := (hquiet.functions row).trans h.function
      place := hquiet.rows.places _ _ h.place
      inner := by
        rw [hpasses.current]
        exact h.inner
      bare := h.bare
      start := h.start
      safe := fun i hi => by
        rw [hquiet.functions] at hi
        exact (h.safe i hi).imp_right (hpasses.table.safe i)
      made := fun i f' hf' => by
        rw [hquiet.functions] at hf'
        exact h.made i f' hf'
      program := (congrArg Memory.program (tr.memory_read hread)).trans h.program
      strays := (tr.strays_read hread).trans h.strays }

/-- **A definition.** -/
theorem lands_define (hp : tr.Into p) (x : String) (params : List String) (body : Block)
    (h : Span w i j (Statement.define x params body).marks) (hg : Fit E f? inLoop (tr.state i))
    {laid : FunctionInfo → Option Loop → Nat → Nat → List Body → Prop}
    (ih : ∀ f, BlockLands tr p (some f) false body (laid f)) :
    Lands tr p inLoop i j false (blockStrays body false)
      fun _ => DefinitionLies tr p body (fun f => laid f none) i j := by
  simp only [Statement.marks, span_cons, span_append, span_nil] at h
  obtain ⟨hread, hname, henter, hopen, k, hparams, hclose, hdone, hcolon, m, hbody, hact, hretire,
    rfl⟩ := h
  have hfirst := (passes_read hread hg).read hname hg
  have hg₁ := hg.passes hfirst
  have hslots : tr.slots (i + 1 + 1) = tr.slots i := by
    rw [tr.slots_read hname, tr.slots_read hread]
  -- the header, up to the body
  obtain ⟨f, row, hbare, hheads⟩ :=
    tr.of_ends henter (heads_startFunction hg₁ (tr.bindable henter rfl))
  obtain ⟨f', hbare', hheads'⟩ := heads_params hg₁ params hparams hbare (hheads.read hg₁ hopen)
  have hopens := (tr.of_ends hdone ((hheads'.read hg₁ hclose).publish hg₁ hbare')).read hg₁ hcolon
  generalize hf : ({ f' with start := (tr.state (i + 1 + 1)).programNext + 1 } : FunctionInfo) = f₁
    at hopens
  obtain ⟨waiting, bodies, hblock, hnone, hlaid⟩ := ih f₁ hbody (hopens.fit hg₁)
  -- nothing waits for a loop that the body is no part of
  obtain rfl := hnone rfl
  have hlt := (List.getElem?_eq_some_iff.1 henter).1
  obtain ⟨hpasses, hprogram, hhides⟩ := tr.of_ends hact
    (hopens.ends_endFunction hg₁ (fun _ _ => hp.start_le (Nat.le_of_lt hlt)) hblock)
  have hg₂ := hg₁.passes hpasses
  obtain ⟨hpasses', hprogram', hretired⟩ := tr.of_ends hretire (ends_retireRivals_passes hg₂)
  have hlengthens := hblock.program
  rw [hopens.program] at hlengthens
  obtain ⟨-, haround, htail⟩ := closedBody_spec f₁ (returnsFrom body) hlengthens
  have hp' : closedBody (tr.state m).memory.program (tr.state (i + 1 + 1)).memory.program.size f₁
      (returnsFrom body) = (tr.state (m + 1)).memory.program := hprogram.symm
  rw [hp'] at haround htail
  have hend : tr.slots (m + 1 + 1) = tr.slots (m + 1) := by
    rw [tr.slots_eq, hprogram', ← tr.slots_eq]
  have hwhole := (hfirst.trans hpasses).trans hpasses'
  rw [Waiting.append_none, Waiting.append_none, List.append_nil, List.append_nil, List.nil_append,
    List.nil_append] at hwhole
  refine ⟨_, _, hwhole, fun _ => rfl, fun l? _ _ => ?_⟩
  have hle : i ≤ k + 1 + 1 + 1 := by
    have hk := hparams.eq_add
    omega
  refine ⟨f₁, k + 1 + 1 + 1, m, bodies, ?_, hle, rfl, ?_, ?_, ?_, hlaid none rfl (by simp), ?_,
    fun info hv => hhides info (hretired info hv)⟩
  · rw [hend]
    rfl
  · rw [hend, ← hslots]
    exact hp.holds hact haround
  · rw [hopens.start, ← hslots]
    rfl
  · rw [hopens.start, tr.slots_eq, hopens.program, Array.size_push]
    rfl
  · rw [hend]
    cases hreturns : returnsFrom body with
    | true =>
      rw [hreturns] at htail
      exact htail
    | false =>
      rw [hreturns] at htail
      obtain ⟨hassign, hjump, hsize⟩ := htail
      exact ⟨hp.holds hact hassign, hp.holds hact hjump, hend.trans hsize⟩

mutual

/-- **Every statement lands.** -/
theorem Statement.lands (hp : tr.Into p) : ∀ (s : Statement) {i j : Nat} {f? : Option FunctionInfo}
    {inLoop : Bool}, Span w i j s.marks → Fit E f? inLoop (tr.state i) →
      Lands tr p inLoop i j s.returns (s.strays inLoop) fun l? => s.Laid tr p f? l? i j
  | .assign .., _, _, _, _, h, hg => lands_simple hp rfl h hg
  | .assignElement .., _, _, _, _, h, hg => lands_simple hp rfl h hg
  | .call .., _, _, _, _, h, hg => lands_simple hp rfl h hg
  | .global _, _, _, _, _, h, hg => lands_simple hp rfl h hg
  | .print _, _, _, _, _, h, hg => lands_simple hp rfl h hg
  | .returnValue e, _, _, _, _, h, hg => lands_returnValue hp e h hg
  | .returnNothing, _, _, _, _, h, hg => lands_returnNothing hp h hg
  | .leave exit, _, _, _, _, h, hg => lands_leave exit h hg
  | .define x params body, _, _, _, _, h, hg =>
    lands_define hp x params body h hg fun _ => block_lands hp body
  | .ifThen test body, _, _, _, _, h, hg => lands_ifThen hp test body h hg (block_lands hp body)
  | .ifElse test body other, _, _, _, _, h, hg =>
    lands_ifElse hp test body other h hg (block_lands hp body) (block_lands hp other)
  | .loop test body, _, _, _, _, h, hg => lands_loop hp test body h hg (block_lands hp body)

/-- **Every block lands,** statement by statement. -/
theorem block_lands (hp : tr.Into p) : ∀ (b : List Statement) {f? : Option FunctionInfo}
    {inLoop : Bool}, BlockLands tr p f? inLoop b fun l? n m => blockLaid tr p b f? l? n m
  | [], _, _, n, m, h, hg => by
    obtain rfl : n = m := h
    exact (lands_nothing hg).mono fun _ _ hbodies => ⟨hbodies, rfl⟩
  | s :: rest, f?, inLoop, n, m, h, hg => by
    simp only [blockMarks, span_append, span_cons] at h
    obtain ⟨k, hs, hread, hrest⟩ := h
    refine ((Statement.lands hp s hs hg).cons hread hg (block_lands hp rest hrest)).mono ?_
    rintro l? _ ⟨bodies, bodies', rfl, hlaid, hlaid'⟩
    exact ⟨k, bodies, bodies', rfl, hlaid, tr.slots_read hread, hlaid'⟩

end

end Statements

end OnePass.Syntax

namespace OnePass.Derivation

open Emission Names Target Syntax
open Grammar (Mark counted)
open Machine

/-- There are no functions in the beginning. -/
theorem function?_begun (config : Config) (source : String) (row : Nat) :
    (begun config source).generator.symbols.function? row = none := by
  rcases generator_begun config source with heq | ⟨-, heq⟩
  · rw [heq]
    exact SymbolTable.function?_ofKeywords _ row
  · rw [heq]
    exact (SymbolTable.function?_record _ _).trans (SymbolTable.function?_ofKeywords _ row)

theorem symbols_begun (config : Config) (source : String) :
    (begun config source).generator.symbols.Orderly := by
  have hwords : (SymbolTable.ofKeywords config.keywords).Orderly := by
    refine ⟨Scopes.nested_initial, fun row s hs => ?_⟩
    obtain ⟨r, hr, rfl⟩ := Option.map_eq_some_iff.1 hs
    rw [SymbolTable.ofKeywords, List.getElem?_toArray, List.getElem?_map] at hr
    obtain ⟨word, -, rfl⟩ := Option.map_eq_some_iff.1 hr
    exact Nat.zero_lt_one
  rcases generator_begun config source with heq | ⟨-, heq⟩
  · rw [heq]
    exact hwords
  · rw [heq]
    exact (SymbolTable.Turns.of_longer hwords (SymbolTable.longer_record _ _)
      (SymbolTable.scopes_record _ _) (fun _ => SymbolTable.function?_record _ _)
        : SymbolTable.Turns 0 _ _).orderly

/-- **A derivation begins in a fit state,** outside of functions and loops. -/
theorem fit_begun (config : Config) (source : String) :
    Fit (.reserving config.keywords) none false (begun config source).generator := by
  have hstart : Fit (.reserving config.keywords) none false (.ofConfig config) :=
    { rooted := rfl
      records := by
        refine ⟨.empty, ?_⟩
        unfold Setting.Records
        split
        · exact loops?_ofKeywords ‹_›
        · rfl
      safe := fun row hrow => by
        have hnone : (Generator.ofConfig config).symbols.function? row = none :=
          SymbolTable.function?_ofKeywords _ row
        rw [hnone] at hrow
        cases hrow
      scope := ⟨.program, none, ⟨_, rfl, rfl, rfl⟩, rfl⟩
      reserved := fun hc => by cases hc
      definition := rfl }
  rcases generator_begun config source with heq | ⟨hfits, heq⟩
  · rw [heq]
    exact hstart
  · rw [heq]
    exact hstart.quiet (quiet_record hfits _)

/-- **An accepted text is laid out in its program,** with its functions as the bodies. -/
theorem exists_laid {config : Config} {source : String} {o : Outcome} {p : Program}
    (h : parse config source = .ok o) (he : o.syntaxErrors = []) (hsource : source.length < 2 ^ 63)
    (hp : Extends (fun _ => True) o.generator.memory.program p) (hsize : p.size < 2 ^ 63) :
    ∃ (b : Block) (tr : Trace (.reserving config.keywords) (blockMarks b)) (bodies : List Body),
      (∀ s ∈ b, s.Graded) ∧ Mark.Spelled (blockMarks b) o.scan.tokens ∧ tr.Into p ∧
        tr.state 0 = (begun config source).generator ∧
        tr.state (blockMarks b).length = o.generator ∧
        blockLaid tr p b none none 0 (blockMarks b).length bodies ∧
        Passes (.reserving config.keywords) (returnsFrom b) .none bodies (blockStrays b false)
          (begun config source).generator o.generator := by
  obtain ⟨b, tr, hgraded, hs, hcount, hstart, hend, -⟩ := trace_of_parse h he
  have hinto : tr.Into p :=
    { orderly := hstart ▸ symbols_begun config source
      start := hstart ▸ function?_begun config source
      counted := Nat.lt_of_le_of_lt hcount hsource
      small := hsize
      program := hend ▸ hp }
  have hfit := fit_begun config source
  rw [← hstart] at hfit
  obtain ⟨waiting, bodies, hpasses, hnone, hlaid⟩ := block_lands hinto b (span_self _) hfit
  obtain rfl := hnone rfl
  refine ⟨b, tr, bodies, hgraded, hs, hinto, hstart, hend, hlaid none rfl (by simp), ?_⟩
  rw [← hstart, ← hend]
  exact hpasses

end OnePass.Derivation
