import OnePass.Proofs.Syntax.Routing

/-!
# Returns stand in bodies

A return outside of functions is compiled into nothing. So what jumps through a return cell stands
in the body of a function.

* `LeftWithin`: code with such jumps in bodies only. `LeftWithin.seq`: pieces are put together.
* `Statement.leftWithin`, `block_leftWithin`: the code of what stands in no function.
* `Bodied`: a program with its bodies. `Bodied.inside`, `Bodied.outside`: **where paths come to a
  jump through a cell.**
-/

namespace OnePass.Syntax

open OnePass.Derivation Emission Names Target
open Grammar (Action Mark Terminal)

/-- **Code that is left in bodies only:** jumps through a cell stand there. -/
def LeftWithin (p : Program) (bodies : List Body) (a b : Nat) : Prop :=
  ∀ k c, a ≤ k → k < b → Holds p k (.jumpThrough c) → ∃ B ∈ bodies, B.start ≤ k ∧ k < B.behind

section LeftWithin

variable {E : Setting} {w v : List Mark} {tr : Trace E w} {p : Program} {i j a b c : Nat}
  {l? : Option Loop} {bodies bodies' : List Body} {instruction : Instruction}

theorem leftWithin_nil : LeftWithin p bodies a a := fun _ _ h h' _ => absurd h (Nat.not_le.2 h')

/-- One slot that is no jump through a cell. -/
theorem leftWithin_slot (h : Holds p a instruction) (hi : ∀ c, instruction ≠ .jumpThrough c) :
    LeftWithin p bodies a (a + 1) := fun k c hk hk' hc => by
  obtain rfl : k = a := by omega
  exact absurd (h.unique hc) (hi c)

theorem jump_ne_jumpThrough (t c : Nat) : Instruction.jump t ≠ .jumpThrough c := fun h => by
  have hmode := congrArg (fun i : Instruction => i.first.mode) h
  cases hmode

theorem jumpIfFalse_ne_jumpThrough (o : Operand) (t c : Nat) :
    Instruction.jumpIfFalse o t ≠ .jumpThrough c := fun h => by
  have hop := congrArg Instruction.opcode h
  cases hop

/-- **One piece behind another.** -/
theorem LeftWithin.seq (h : LeftWithin p bodies a b) (h' : LeftWithin p bodies' b c) :
    LeftWithin p (bodies ++ bodies') a c := fun k cell hk hk' hc => by
  by_cases hlt : k < b
  · obtain ⟨B, hB, hin⟩ := h k cell hk hlt hc
    exact ⟨B, List.mem_append_left _ hB, hin⟩
  · obtain ⟨B, hB, hin⟩ := h' k cell (Nat.le_of_not_lt hlt) hk' hc
    exact ⟨B, List.mem_append_right _ hB, hin⟩

theorem leftWithin_computing (hp : tr.Into p) (h : Span w i j v) (hv : Computing v)
    (hj : j ≤ w.length) : LeftWithin p [] (tr.slots i) (tr.slots j) := fun k c hk hk' hc => by
  rcases within_computing hp h hv hj hk hk' with
    ⟨hi, hplain⟩ | ⟨hi, -, -⟩ | ⟨hi, -, -⟩ | ⟨-, hcalls, -, rfl⟩
  · obtain rfl := hi.unique hc
    exact absurd rfl hplain.1
  · exact absurd (hi.unique hc) (jump_ne_jumpThrough _ _)
  · exact absurd (hi.unique hc) (jumpIfFalse_ne_jumpThrough _ _ _)
  · exact absurd (Holds.unique (p := p) hcalls.2 hc) (jump_ne_jumpThrough _ _)

theorem leftWithin_test (hp : tr.Into p) {test : Relation} {target : Nat}
    (h : Tests tr p i j test target) : LeftWithin p [] (tr.slots i) (tr.slots j + 1) := by
  obtain ⟨hspan, condition, st, -, hholds⟩ := h
  have hj := (span_bounds hspan test.marks_ne_nil).2
  have hslot : LeftWithin p [] (tr.slots j) (tr.slots j + 1) :=
    leftWithin_slot hholds (jumpIfFalse_ne_jumpThrough _ _)
  exact (leftWithin_computing hp hspan test.computing hj).seq hslot

/-- A definition is left in its own body. -/
theorem leftWithin_define {x : String} {params : List String} {body : Block}
    (h : (Statement.define x params body).Laid tr p none l? i j bodies) :
    LeftWithin p bodies (tr.slots i) (tr.slots j) := by
  obtain ⟨f, n, m, inner, rfl, -, -, haround, hstart, -⟩ := h
  intro k c hk hk' hc
  by_cases heq : k = tr.slots i
  · subst heq
    exact absurd (haround.unique hc) (jump_ne_jumpThrough _ _)
  · refine ⟨_, List.mem_cons_self, ?_, hk'⟩
    have hself : Body.start ⟨f, tr.slots j⟩ = tr.slots i + 1 := hstart
    omega

mutual

/-- **A statement outside of functions** is left in the bodies of those that it defines. -/
theorem Statement.leftWithin (hp : tr.Into p) : ∀ (s : Statement) {l? : Option Loop} {i j : Nat}
    {bodies : List Body}, s.Laid tr p none l? i j bodies → j ≤ w.length →
      LeftWithin p bodies (tr.slots i) (tr.slots j)
  | .assign .., _, _, _, _, h, hj => h.1 ▸ leftWithin_computing hp h.2 (Statement.computing rfl) hj
  | .assignElement .., _, _, _, _, h, hj =>
    h.1 ▸ leftWithin_computing hp h.2 (Statement.computing rfl) hj
  | .call .., _, _, _, _, h, hj => h.1 ▸ leftWithin_computing hp h.2 (Statement.computing rfl) hj
  | .global _, _, _, _, _, h, hj => h.1 ▸ leftWithin_computing hp h.2 (Statement.computing rfl) hj
  | .print _, _, _, _, _, h, hj => h.1 ▸ leftWithin_computing hp h.2 (Statement.computing rfl) hj
  | .returnValue e, _, _, _, _, h, _ => by
    obtain ⟨rfl, n, _, _, hspan, -, hslots, rfl, hsame⟩ := h
    have hcode := leftWithin_computing hp hspan e.computing (span_bounds hspan e.marks_ne_nil).2
    rwa [hslots, ← hsame] at hcode
  | .returnNothing, _, _, _, _, h, _ => by
    obtain ⟨-, -, hslots⟩ := h
    rw [hslots]
    exact leftWithin_nil
  | .leave _, none, _, _, _, h, _ => by
    obtain ⟨-, -, hslots, -⟩ := h
    rw [hslots]
    exact leftWithin_nil
  | .leave _, some _, _, _, _, h, _ => by
    obtain ⟨-, -, hslots, hholds⟩ := h
    rw [hslots]
    exact leftWithin_slot hholds (jump_ne_jumpThrough _)
  | .define .., _, _, _, _, h, _ => leftWithin_define h
  | .ifThen test body, _, _, _, _, h, hj => by
    obtain ⟨c, n, htest, hfirst, hnext, hbody, hslots, rfl⟩ := h
    have hhead := leftWithin_test hp htest
    have hinner := block_leftWithin hp body hbody (by omega)
    rw [hfirst] at hhead
    rw [hnext] at hinner
    rw [hslots]
    exact hhead.seq hinner
  | .ifElse test body other, _, _, _, _, h, hj => by
    obtain ⟨c, n, m, _, _, rfl, htest, hfirst, hnext, hbody, hjump, hnext', hother, hslots, rfl⟩ := h
    have hhead := leftWithin_test hp htest
    have hmarks := block_le other hother
    have hinner := block_leftWithin hp body hbody (by omega)
    have hinner' := block_leftWithin hp other hother (by omega)
    rw [hfirst] at hhead
    rw [hnext] at hinner
    rw [hnext'] at hinner'
    rw [hslots]
    have hslot : LeftWithin p [] (tr.slots n) (tr.slots n + 1) :=
      leftWithin_slot hjump (jump_ne_jumpThrough _)
    exact (hhead.seq hinner).seq (hslot.seq hinner')
  | .loop test body, _, _, _, _, h, hj => by
    obtain ⟨c, n, htest, hfirst, hnext, hbody, hback, hslots, rfl⟩ := h
    have hhead := leftWithin_test hp htest
    have hinner := block_leftWithin hp body hbody (by omega)
    rw [hfirst] at hhead
    rw [hnext] at hinner
    rw [hslots]
    have hslot : LeftWithin p [] (tr.slots n) (tr.slots n + 1) :=
      leftWithin_slot hback (jump_ne_jumpThrough _)
    have hwhole := (hhead.seq hinner).seq hslot
    rwa [List.append_nil] at hwhole

/-- **So is a block.** -/
theorem block_leftWithin (hp : tr.Into p) : ∀ (b : List Statement) {l? : Option Loop} {i j : Nat}
    {bodies : List Body}, blockLaid tr p b none l? i j bodies → j ≤ w.length →
      LeftWithin p bodies (tr.slots i) (tr.slots j)
  | [], _, _, _, _, h, _ => by
    obtain ⟨-, rfl⟩ := h
    exact leftWithin_nil
  | s :: rest, _, _, _, _, h, hj => by
    obtain ⟨n, _, _, rfl, hs, hnext, hrest⟩ := h
    have hmarks := block_le rest hrest
    have hsecond := block_leftWithin hp rest hrest hj
    rw [hnext] at hsecond
    exact (Statement.leftWithin hp s hs (by omega)).seq hsecond

end

end LeftWithin

/-- **A program with the bodies of its functions.** Only calls lead into a body, no path leads out of it,
and functions are left there. -/
structure Bodied (functions : FunctionInfo → Prop) (p : Program) (bodies : List Body) : Prop where
  body : ∀ f, functions f → ∃ B ∈ bodies, B.function = f.bare
  around : ∀ B ∈ bodies, 0 < B.start ∧ B.start < B.behind ∧ B.behind < 2 ^ 63 ∧
    Holds p (B.start - 1) (.jump B.behind)
  spares : ∀ B ∈ bodies, ∀ k t, (k < B.start ∨ B.behind ≤ k) → Leads p k t → B.start ≤ t →
    t < B.behind → CallJump functions p k
  backward : Backward functions p
  closed : ∀ B ∈ bodies, B.Closed functions p
  left : ∀ k c, Holds p k (.jumpThrough c) → ∃ B ∈ bodies, B.start ≤ k ∧ k < B.behind

section Bodied

variable {functions : FunctionInfo → Prop} {p : Program} {bodies : List Body} {f : FunctionInfo}
  {B : Body} {k k' c : Nat}

/-- **A path through a function** comes to jumps through its own return cell only. -/
theorem Bodied.inside (h : Bodied functions p bodies) (hf : functions f)
    (hpath : Relation.ReflTransGen (Flows functions p) f.start k)
    (hc : Holds p k (.jumpThrough c)) : Holds p k (.jumpThrough f.returnCell) := by
  obtain ⟨B, hB, hfun⟩ := h.body f hf
  have hself : B.start = f.start := by rw [Body.start, hfun, FunctionInfo.start_bare]
  have hcell : B.function.returnCell = f.returnCell := by rw [hfun, FunctionInfo.returnCell_bare]
  obtain ⟨inside, hinside, hentry⟩ := h.closed B hB
  have hin := hinside.reaches (hentry.resolve_right And.right) (hself ▸ hpath)
  obtain ⟨i, hi, hthrough⟩ := hinside.holds k hin
  obtain rfl := hi.unique hc
  rw [hthrough rfl rfl, hcell] at hi
  exact hi

/-- **No path enters a body** from outside, as the jump of a call comes back. -/
theorem Bodied.avoids (h : Bodied functions p bodies) (hB : B ∈ bodies)
    (hk : k < B.start ∨ B.behind ≤ k) (hflow : Flows functions p k k') :
    k' < B.start ∨ B.behind ≤ k' := by
  obtain ⟨hpos, hlt, hsmall, haround⟩ := h.around B hB
  by_contra hin
  -- the slot before the body holds the jump around it
  have hbefore : k' = k + 1 → Holds p k (.jump B.behind) := fun heq => by
    obtain rfl : k = B.start - 1 := by omega
    exact haround
  cases hflow with
  | next hi hop =>
    exact hop (congrArg Instruction.opcode (hi.unique (hbefore rfl)))
  | jump hl hc => exact hc (h.spares B hB k k' hk hl (by omega) (by omega))
  | back hc => exact h.backward.not_call (hbefore rfl) hsmall (by omega) hc

/-- **A path from the first slot** comes to no jump through a cell. -/
theorem Bodied.outside (h : Bodied functions p bodies)
    (hpath : Relation.ReflTransGen (Flows functions p) 0 k) : ¬Holds p k (.jumpThrough c) := by
  have houtside : ∀ B ∈ bodies, k < B.start ∨ B.behind ≤ k := by
    induction hpath with
    | refl => exact fun B hB => .inl (h.around B hB).1
    | tail _ hflow ih => exact fun B hB => h.avoids hB (ih B hB) hflow
  intro hc
  obtain ⟨B, hB, hin⟩ := h.left k c hc
  have hout := houtside B hB
  omega

end Bodied

end OnePass.Syntax
