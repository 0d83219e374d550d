import OnePass.Proofs.Target.Machine

/-!
# Calls and returns along a run

A function has one cell for the slot to return to, whoever calls it. A run has a stack of the
activations that have not been left: a call puts one on it, and a jump through a return cell takes
one off. As long as no function is called while it is active, and nothing is written through a
pointer into the return cell of one that is, every such jump leads back behind the call that began
the activation on top.

* `Activation`, `Turn`, `Runs`: **the activations along a run.**
* `Reenters`, `Clobbers`: what spoils the slot that an activation returns to.
* `Returning`: a program whose return cells are written by calls only.
* `Nested`, `InOrder`: activations that lie in one another. `InOrder.turn`: one step.
* `Returning.returns`: **calls and returns nest.**
* `Runs.spoils_of_acyclic`: where no function calls itself, none is called while it is active.
-/

namespace OnePass.Target

open Emission Names

/-- **An activation of a function,** with the slot behind the jump of the call that began it. -/
structure Activation where
  function : FunctionInfo
  back : Nat

/-- **What a slot makes of the activations,** the last first. The jump of a call begins one, and a jump
through a cell ends one. -/
inductive Turn (functions : FunctionInfo → Prop) (p : Program) :
    Nat → List Activation → List Activation → Prop
  | call {f : FunctionInfo} {slot : Nat} (acts : List Activation) (hf : functions f)
      (h : Calls p slot f) : Turn functions p (slot + 1) acts (⟨f, slot + 2⟩ :: acts)
  | leave {k c : Nat} (a : Activation) (acts : List Activation) (h : Holds p k (.jumpThrough c)) :
      Turn functions p k (a :: acts) acts
  | stay {k : Nat} (acts : List Activation) (hc : ¬CallJump functions p k)
      (h : ∀ c, ¬Holds p k (.jumpThrough c)) : Turn functions p k acts acts

/-- **A run with its activations,** along states in which nothing bad is about to happen. -/
inductive Runs (functions : FunctionInfo → Prop) (p : Program)
    (bad : State → List Activation → Prop) : State → List Activation → Prop
  | start : Runs functions p bad .initial []
  | step {s s' : State} {acts acts' : List Activation} (h : Runs functions p bad s acts)
      (hgood : ¬bad s acts) (hs : step? p s = some s')
      (ht : Turn functions p s.slot acts acts') : Runs functions p bad s' acts'

/-- **A function is called** that is active. -/
def Reenters (functions : FunctionInfo → Prop) (p : Program) (s : State)
    (acts : List Activation) : Prop :=
  ∃ f slot, functions f ∧ Calls p slot f ∧ s.slot = slot + 1 ∧ ∃ a ∈ acts, a.function = f

/-- **A pointer is written through** that points to the return cell of an active function. -/
def Clobbers (p : Program) (s : State) (acts : List Activation) : Prop :=
  ∃ i o, Holds p s.slot i ∧ i.target? = some o ∧ o.mode = .indirect ∧
    ∃ a ∈ acts, s.cells o.value = a.function.returnCell

/-- **An instruction of a program:** one that the next one follows, or one of the three jumps. -/
inductive Instruction.Shaped : Instruction → Prop
  | plain {i : Instruction} (h : i.Plain) : i.Shaped
  | jump (t : Nat) : (Instruction.jump t).Shaped
  | jumpIfFalse (c : Operand) (t : Nat) : (Instruction.jumpIfFalse c t).Shaped
  | jumpThrough (c : Nat) : (Instruction.jumpThrough c).Shaped

/-- **A program whose return cells are written by calls only.** Each function has its own, and a path
through its body ends there; the jump of a call is come to behind the store before it only. -/
structure Returning (functions : FunctionInfo → Prop) (p : Program) : Prop where
  small : ∀ f, functions f → f.start < 2 ^ 63 ∧ f.returnCell < 2 ^ 63
  shaped : ∀ k i, Holds p k i → i.Shaped
  cells : ∀ f f', functions f → functions f' → f.returnCell = f'.returnCell → f = f'
  stores : ∀ f k i, functions f → Holds p k i → i.WritesTo f.returnCell → Calls p k f
  entries : ∀ k t, Leads p k t → ¬CallJump functions p t
  inside : ∀ f k c, functions f → Relation.ReflTransGen (Flows functions p) f.start k →
    Holds p k (.jumpThrough c) → Holds p k (.jumpThrough f.returnCell)
  outside : ∀ k c, Relation.ReflTransGen (Flows functions p) 0 k → ¬Holds p k (.jumpThrough c)

/-- **Activations that lie in one another.** Paths lead from the start of the function of each to the
call that began the one on top of it, and from that of the one on top to the slot that is next. -/
inductive Nested (functions : FunctionInfo → Prop) (p : Program) : Nat → List Activation → Prop
  | outermost {k : Nat} (h : Relation.ReflTransGen (Flows functions p) 0 k) :
      Nested functions p k []
  | within {f : FunctionInfo} {slot k : Nat} {acts : List Activation} (hf : functions f)
      (hcalls : Calls p slot f) (hpath : Relation.ReflTransGen (Flows functions p) f.start k)
      (h : Nested functions p (slot + 1) acts) : Nested functions p k (⟨f, slot + 2⟩ :: acts)

/-- **A state with its activations in order.** The return cell of each holds the slot to return to, but
for that of a function which is about to be entered, whose own has just been stored. -/
structure InOrder (functions : FunctionInfo → Prop) (p : Program) (s : State)
    (acts : List Activation) : Prop where
  nested : Nested functions p s.slot acts
  distinct : (acts.map Activation.function).Nodup
  back : ∀ a ∈ acts, s.cells a.function.returnCell = a.back ∨
    ∃ slot, Calls p slot a.function ∧ s.slot = slot + 1
  stored : ∀ f slot, functions f → Calls p slot f → s.slot = slot + 1 →
    s.cells f.returnCell = (slot + 2 : Nat)

variable {functions : FunctionInfo → Prop} {p : Program} {s s' : State} {i : Instruction}
  {k k' c t : Nat} {f : FunctionInfo} {a : Activation} {acts acts' : List Activation}
  {bad bad' : State → List Activation → Prop}

section Step

/-- **What a plain instruction does:** it may write its target, and the next one follows. -/
theorem Instruction.Plain.step? (hi : i.Plain) (h : i.step? s = some s') :
    s'.slot = s.slot + 1 ∧ (s'.cells = s.cells ∨ ∃ o address value, i.target? = some o ∧
      o.address? s.cells = some address ∧
        s'.cells = Function.update s.cells address value) := by
  obtain ⟨opcode, first, second, third⟩ := i
  unfold Instruction.step? at h
  split at h
  · rename_i target hop hsecond hthird
    obtain ⟨address, haddress, rfl⟩ := Option.map_eq_some_iff.1 h
    dsimp only at hop hsecond
    subst hop hsecond
    exact ⟨rfl, .inr ⟨target, address, _, rfl, haddress, rfl⟩⟩
  · exact absurd ‹_› hi.2
  · exact absurd ‹_› hi.1
  · cases h
    exact ⟨rfl, .inl rfl⟩
  · rename_i _ _ _ right target hsecond hthird
    obtain ⟨value, hvalue, h⟩ := Option.bind_eq_some_iff.1 h
    obtain ⟨address, haddress, h⟩ := Option.bind_eq_some_iff.1 h
    cases h
    dsimp only at hsecond hthird
    subst hsecond hthird
    refine ⟨rfl, .inr ⟨target, address, value, ?_, haddress, rfl⟩⟩
    cases opcode <;> first | rfl | cases hvalue
  · cases h

/-- A slot that an operand of a jump names is known beforehand. -/
theorem Operand.slot?_eq_index? (o : Operand) (h : o.mode = .direct) (cells : Cells) :
    o.slot? cells = o.index? := by
  have haddress : o.address? cells = some o.value := by rw [Operand.address?, h]
  rw [Operand.slot?, haddress, Option.bind_some, Operand.index?]
  cases o.value <;> rfl

/-- **A jump** goes on at the slot that it names. -/
theorem Holds.leads_of_jump (h : Holds p s.slot (.jump t)) (hs : Target.step? p s = some s') :
    Leads p s.slot s'.slot ∧ s'.cells = s.cells := by
  have hgo : (Instruction.jump t).step? s = ((Operand.direct t).slot? s.cells).map s.goTo := rfl
  rw [h.step?, hgo, Operand.slot?_eq_index? _ rfl] at hs
  obtain ⟨slot, hslot, rfl⟩ := Option.map_eq_some_iff.1 hs
  exact ⟨⟨_, h, (Instruction.jumpTarget?_jump_eq t).trans hslot⟩, rfl⟩

/-- **A conditional jump** goes on behind itself, or at the slot that it names. -/
theorem Holds.leads_of_jumpIfFalse {condition : Operand}
    (h : Holds p s.slot (.jumpIfFalse condition t)) (hs : Target.step? p s = some s') :
    (s'.slot = s.slot + 1 ∨ Leads p s.slot s'.slot) ∧ s'.cells = s.cells := by
  have hgo : (Instruction.jumpIfFalse condition t).step? s =
      if condition.read s.cells = 0 then ((Operand.direct t).slot? s.cells).map s.goTo
      else some (s.goTo (s.slot + 1)) := rfl
  rw [h.step?, hgo, Operand.slot?_eq_index? _ rfl] at hs
  split at hs
  · obtain ⟨slot, hslot, rfl⟩ := Option.map_eq_some_iff.1 hs
    exact ⟨.inr ⟨_, h, (Instruction.jumpTarget?_jumpIfFalse_eq condition t).trans hslot⟩, rfl⟩
  · cases hs
    exact ⟨.inl rfl, rfl⟩

/-- Where the machine steps it executes an instruction. -/
theorem exists_holds (h : step? p s = some s') : ∃ i, Holds p s.slot i ∧ i.step? s = some s' := by
  obtain ⟨i, hi, h⟩ := Option.bind_eq_some_iff.1 h
  exact ⟨i, Option.join_eq_some_iff.1 hi, h⟩

/-- Two calls of one slot are calls of functions that agree in their return cells. -/
theorem Returning.calls_unique {f' : FunctionInfo} {slot : Nat} (h : Returning functions p)
    (hf : functions f) (hf' : functions f') (hcalls : Calls p slot f) (hcalls' : Calls p slot f') :
    f = f' := by
  refine h.cells f f' hf hf' ?_
  have heq := Holds.unique (p := p) hcalls.1 hcalls'.1
  have hcell : Operand.direct f.returnCell = .direct f'.returnCell :=
    Option.some.inj (congrArg Instruction.second heq)
  have hword := congrArg Operand.value hcell
  rw [Operand.value_direct (h.small f hf).2, Operand.value_direct (h.small f' hf').2] at hword
  exact Int.natCast_inj.1 hword

/-- The slot behind a call is not the jump of another one, before which there is a store. -/
theorem not_callJump_behind {slot : Nat} (h : Calls p slot f) :
    ¬CallJump functions p (slot + 2) := by
  rintro ⟨f', slot', -, hcalls, heq⟩
  obtain rfl : slot' = slot + 1 := by omega
  have hop := congrArg Instruction.opcode (Holds.unique (p := p) h.2 hcalls.1)
  cases hop

/-- **The store of a call** leaves the slot behind its jump, which comes next, in the return cell. -/
theorem Returning.step_store (h : Returning functions p) (hf : functions f)
    (hcalls : Calls p s.slot f) (hs : step? p s = some s') :
    s'.slot = s.slot + 1 ∧ s'.cells f.returnCell = (s.slot + 2 : Nat) := by
  have hstore : Holds p s.slot (.assign (.immediate (s.slot + 2)) (.direct f.returnCell)) :=
    hcalls.1
  have heq := (hstore.assign (h.small f hf).2).symm.trans hs
  cases heq
  exact ⟨rfl, Function.update_self _ _ _⟩

/-- The jump of a call is none through a cell. -/
theorem CallJump.not_jumpThrough (h : CallJump functions p k) : ¬Holds p k (.jumpThrough c) := by
  intro hc
  obtain ⟨f, -, hjump⟩ := h.holds
  have hmode := congrArg (fun i : Instruction => i.first.mode) (hjump.unique hc)
  cases hmode

end Step

/-- **What a step that neither calls nor returns does:** it follows a path, and of the return cells
it writes that of the call whose store it is, or of what it points to. -/
theorem Returning.step_stays (h : Returning functions p) (hs : step? p s = some s')
    (hc : ¬CallJump functions p s.slot) (hj : ∀ c, ¬Holds p s.slot (.jumpThrough c)) :
    Flows functions p s.slot s'.slot ∧ ∀ f, functions f →
      s'.cells f.returnCell = s.cells f.returnCell ∨
        (Calls p s.slot f ∧ s'.slot = s.slot + 1 ∧
          s'.cells f.returnCell = (s.slot + 2 : Nat)) ∨
        ∃ i o, Holds p s.slot i ∧ i.target? = some o ∧ o.mode = .indirect ∧
          s.cells o.value = f.returnCell := by
  obtain ⟨i, hi, hstep⟩ := exists_holds hs
  cases h.shaped _ _ hi with
  | plain hplain =>
    obtain ⟨hslot, hcells⟩ := hplain.step? hstep
    refine ⟨hslot ▸ .next hi hplain.1, fun f hf => ?_⟩
    rcases hcells with hsame | ⟨o, address, value, ho, haddress, hwrite⟩
    · exact .inl (congrFun hsame _)
    by_cases heq : address = f.returnCell
    · subst heq
      refine .inr ?_
      unfold Operand.address? at haddress
      split at haddress
      · cases haddress
      · -- a return cell is written directly by calls only
        rename_i hmode
        have hcalls := h.stores f _ _ hf hi ⟨o, ho, hmode, Option.some.inj haddress⟩
        exact .inl ⟨hcalls, h.step_store hf hcalls hs⟩
      · rename_i hmode
        exact .inr ⟨i, o, hi, ho, hmode, Option.some.inj haddress⟩
    · refine .inl ?_
      rw [hwrite, Function.update_of_ne (Ne.symm heq)]
  | jump t =>
    obtain ⟨hl, hcells⟩ := hi.leads_of_jump hs
    exact ⟨.jump hl hc, fun _ _ => .inl (congrFun hcells _)⟩
  | jumpIfFalse condition t =>
    obtain ⟨hnext, hcells⟩ := hi.leads_of_jumpIfFalse hs
    refine ⟨?_, fun _ _ => .inl (congrFun hcells _)⟩
    rcases hnext with hnext | hl
    · exact hnext ▸ .next hi nofun
    · exact .jump hl hc
  | jumpThrough c => exact absurd hi (hj c)

section Nested

/-- Paths are followed within the last activation. -/
theorem Nested.flow (h : Nested functions p k acts) (hflow : Flows functions p k k') :
    Nested functions p k' acts := by
  cases h with
  | outermost hpath => exact .outermost (hpath.tail hflow)
  | within hf hcalls hpath hrest => exact .within hf hcalls (hpath.tail hflow) hrest

/-- **An activation on top** that is about to be left by a jump through a cell. -/
theorem Nested.leaves (h : Returning functions p) (hn : Nested functions p k acts)
    (hc : Holds p k (.jumpThrough c)) : ∃ a rest, acts = a :: rest ∧
      Holds p k (.jumpThrough a.function.returnCell) ∧ functions a.function ∧
        Nested functions p a.back rest ∧ ¬CallJump functions p a.back := by
  cases hn with
  | outermost hpath => exact absurd hc (h.outside _ _ hpath)
  | within hf hcalls hpath hrest =>
    exact ⟨_, _, rfl, h.inside _ _ _ hf hpath hc, hf, hrest.flow (.back ⟨_, _, hf, hcalls, rfl⟩),
      not_callJump_behind hcalls⟩

theorem Nested.mem_functions (h : Nested functions p k acts) : ∀ a ∈ acts, functions a.function := by
  induction h with
  | outermost => nofun
  | within hf _ _ _ ih => exact List.forall_mem_cons.2 ⟨hf, ih⟩

end Nested

section InOrder

theorem InOrder.start : InOrder functions p .initial [] where
  nested := .outermost .refl
  distinct := List.nodup_nil
  back := nofun
  stored _ _ _ _ heq := by cases heq

/-- **A jump through a return cell** leads back behind the call that began the activation on top. -/
theorem InOrder.returns (h : Returning functions p) (ho : InOrder functions p s acts)
    (hc : Holds p s.slot (.jumpThrough c)) : ∃ a rest, acts = a :: rest ∧
      Holds p s.slot (.jumpThrough a.function.returnCell) ∧
        step? p s = some (s.goTo a.back) ∧ InOrder functions p (s.goTo a.back) rest := by
  obtain ⟨a, rest, rfl, hown, hf, hrest, hnot⟩ := ho.nested.leaves h hc
  -- no call has just been stored, so that every activation has its slot
  have hback : ∀ b ∈ a :: rest, s.cells b.function.returnCell = b.back := fun b hb => by
    refine (ho.back b hb).resolve_right fun ⟨slot, hcalls, heq⟩ => ?_
    exact CallJump.not_jumpThrough
      ⟨_, slot, ho.nested.mem_functions b hb, hcalls, heq⟩ hc
  obtain ⟨hself, hothers⟩ := List.forall_mem_cons.1 hback
  refine ⟨a, rest, rfl, hown, hown.jumpThrough (h.small _ hf).2 hself, ?_⟩
  exact
    { nested := hrest
      distinct := (List.nodup_cons.1 ho.distinct).2
      back := fun b hb => .inl (hothers b hb)
      stored := fun f slot hf hcalls heq => absurd ⟨f, slot, hf, hcalls, heq⟩ hnot }

/-- **A call** begins an activation of a function that is not active. -/
theorem InOrder.calls {slot : Nat} (h : Returning functions p) (ho : InOrder functions p s acts)
    (hf : functions f) (hcalls : Calls p slot f) (hslot : s.slot = slot + 1)
    (hfresh : ∀ a ∈ acts, a.function ≠ f) (hs : step? p s = some s') :
    InOrder functions p s' (⟨f, slot + 2⟩ :: acts) := by
  have hjump : Holds p s.slot (.jump f.start) := hslot ▸ hcalls.2
  have hstart := (h.small f hf).1
  have heq := (hjump.jump hstart).symm.trans hs
  cases heq
  refine ⟨.within hf hcalls .refl (hslot ▸ ho.nested), ?_, ?_, ?_⟩
  · refine List.nodup_cons.2 ⟨fun hmem => ?_, ho.distinct⟩
    obtain ⟨a, ha, heq⟩ := List.mem_map.1 hmem
    exact hfresh a ha heq
  · refine List.forall_mem_cons.2 ⟨.inl (ho.stored f slot hf hcalls hslot), fun a ha => .inl ?_⟩
    refine (ho.back a ha).resolve_right fun ⟨slot', hcalls', hslot'⟩ => hfresh a ha ?_
    obtain rfl : slot' = slot := by omega
    exact h.calls_unique (ho.nested.mem_functions a ha) hf hcalls' hcalls
  · intro f' slot' hf' hcalls' heq
    exact absurd ⟨f', slot', hf', hcalls', heq⟩
      (h.entries _ _ ⟨_, hjump, Instruction.jumpTarget?_jump hstart⟩)

/-- **Any other step** keeps the slots that the activations return to. -/
theorem InOrder.stays (h : Returning functions p) (ho : InOrder functions p s acts)
    (hs : step? p s = some s') (hc : ¬CallJump functions p s.slot)
    (hj : ∀ c, ¬Holds p s.slot (.jumpThrough c)) (hclobbers : ¬Clobbers p s acts) :
    InOrder functions p s' acts := by
  obtain ⟨hflow, hcells⟩ := h.step_stays hs hc hj
  refine ⟨ho.nested.flow hflow, ho.distinct, fun a ha => ?_, fun f slot hf hcalls heq => ?_⟩
  · have hf := ho.nested.mem_functions a ha
    have hback := (ho.back a ha).resolve_right fun ⟨slot, hcalls, heq⟩ =>
      hc ⟨_, slot, hf, hcalls, heq⟩
    rcases hcells _ hf with hsame | ⟨hcalls, hslot, -⟩ | ⟨i, o, hi, htarget, hmode, hpoints⟩
    · exact .inl (hsame.trans hback)
    · exact .inr ⟨_, hcalls, hslot⟩
    · exact absurd ⟨i, o, hi, htarget, hmode, a, ha, hpoints⟩ hclobbers
  · -- the jump of a call is come to from the store before it
    have hjump : CallJump functions p s'.slot := ⟨f, slot, hf, hcalls, heq⟩
    have hnext : s'.slot = s.slot + 1 := hflow.cases.resolve_right fun ⟨hl, _⟩ =>
      h.entries _ _ hl hjump
    obtain rfl : slot = s.slot := by omega
    exact (h.step_store hf hcalls hs).2

end InOrder

/-- **There always are activations:** a state in order has what a turn takes. -/
theorem InOrder.exists_turn (h : Returning functions p) (ho : InOrder functions p s acts) :
    ∃ acts', Turn functions p s.slot acts acts' := by
  by_cases hc : CallJump functions p s.slot
  · obtain ⟨f, slot, hf, hcalls, heq⟩ := hc
    exact ⟨_, heq ▸ Turn.call acts hf hcalls⟩
  · by_cases hj : ∃ c, Holds p s.slot (.jumpThrough c)
    · obtain ⟨c, hc⟩ := hj
      obtain ⟨a, rest, rfl, -⟩ := ho.nested.leaves h hc
      exact ⟨_, .leave a rest hc⟩
    · exact ⟨_, .stay acts hc fun c hc => hj ⟨c, hc⟩⟩

/-- **One step,** by which no function is called that is active and no pointer is written through that
points to the return cell of one. -/
theorem InOrder.turn (h : Returning functions p) (ho : InOrder functions p s acts)
    (hs : step? p s = some s') (ht : Turn functions p s.slot acts acts')
    (hreenters : ¬Reenters functions p s acts) (hclobbers : ¬Clobbers p s acts) :
    InOrder functions p s' acts' := by
  generalize hslot : s.slot = k at ht
  cases ht with
  | call _ hf hcalls =>
    exact ho.calls h hf hcalls hslot
      (fun a ha heq => hreenters ⟨_, _, hf, hcalls, hslot, a, ha, heq⟩) hs
  | leave a _ hc =>
    subst hslot
    obtain ⟨b, rest, heq, -, hreturn, hrest⟩ := ho.returns h hc
    cases heq
    cases hreturn.symm.trans hs
    exact hrest
  | stay _ hc hj =>
    subst hslot
    exact ho.stays h hs hc hj hclobbers

/-- **What spoils the slots** that activations return to. -/
def Spoils (functions : FunctionInfo → Prop) (p : Program) (s : State) (acts : List Activation) :
    Prop :=
  Reenters functions p s acts ∨ Clobbers p s acts

/-- **Activations are in order all along a run** that spoils nothing. -/
theorem Runs.inOrder (h : Returning functions p)
    (hr : Runs functions p (Spoils functions p) s acts) : InOrder functions p s acts := by
  induction hr with
  | start => exact .start
  | step _ hgood hs ht ih =>
    exact ih.turn h hs ht (fun hc => hgood (.inl hc)) fun hc => hgood (.inr hc)

/-- **Calls and returns nest:** along a run that spoils nothing there always are activations, and a jump
through a return cell is one of the function on top, and leads behind the call that began it. -/
theorem Returning.returns (h : Returning functions p)
    (hr : Runs functions p (Spoils functions p) s acts) :
    (∃ acts', Turn functions p s.slot acts acts') ∧ ∀ c, Holds p s.slot (.jumpThrough c) →
      ∃ a rest, acts = a :: rest ∧ Holds p s.slot (.jumpThrough a.function.returnCell) ∧
        step? p s = some (s.goTo a.back) := by
  have ho := hr.inOrder h
  refine ⟨ho.exists_turn h, fun c hc => ?_⟩
  obtain ⟨a, rest, hacts, hcell, hstep, -⟩ := ho.returns h hc
  exact ⟨a, rest, hacts, hcell, hstep⟩

section Acyclic

/-- **A function calls another:** a path from its start comes to the jump of a call. -/
def CallsOn (functions : FunctionInfo → Prop) (p : Program) (f f' : FunctionInfo) : Prop :=
  functions f ∧ functions f' ∧ ∃ slot, Calls p slot f' ∧
    Relation.ReflTransGen (Flows functions p) f.start (slot + 1)

/-- Whatever is active comes to call what is called. -/
theorem Nested.callsOn {slot : Nat} (hn : Nested functions p (slot + 1) acts) (hf : functions f)
    (hcalls : Calls p slot f) :
    ∀ a ∈ acts, Relation.TransGen (CallsOn functions p) a.function f := by
  induction acts generalizing f slot with
  | nil => nofun
  | cons a rest ih =>
    cases hn with
    | within hfun hcalls' hpath hrest =>
      have hon : CallsOn functions p _ f := ⟨hfun, hf, slot, hcalls, hpath⟩
      exact List.forall_mem_cons.2 ⟨.single hon, fun b hb => (ih hrest hfun hcalls' b hb).tail hon⟩

/-- **Where no function calls itself,** directly or indirectly, none is called while it is active. -/
theorem Runs.spoils_of_acyclic (h : Returning functions p)
    (hacyclic : ∀ f, ¬Relation.TransGen (CallsOn functions p) f f)
    (hr : Runs functions p (Clobbers p) s acts) :
    Runs functions p (Spoils functions p) s acts := by
  induction hr with
  | start => exact .start
  | step _ hgood hs ht ih =>
    refine .step ih ?_ hs ht
    rintro (⟨f, slot, hf, hcalls, hslot, a, ha, rfl⟩ | hclobbers)
    · exact hacyclic _ ((hslot ▸ (ih.inOrder h).nested).callsOn hf hcalls a ha)
    · exact hgood hclobbers

end Acyclic

end OnePass.Target
