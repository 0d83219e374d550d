import OnePass.Proofs.Syntax.Enclosed

/-!
# Bodies are closed

No path leads out of the body of a function: it stays in the body, or ends at a jump through
the return cell of the function. That is so even where no return is put at the end of the
body, as one of its statements always returns.

A path through a statement leaves it at its end or at the ends of the loop around it, and
one through a statement that always returns does not come to its end.

* `Routed`: where paths lead in a statement. `Statement.routed`: every statement is so.
* `bodies_closed_of_parse`: no path leads out of a body, and only calls lead into it.
-/

namespace OnePass.Syntax

open OnePass.Derivation Emission Names Target
open Grammar (Action Mark Terminal)

section Paths

variable {E : Setting} {w v : List Mark} {tr : Trace E w} {p : Program}
  {functions : FunctionInfo → Prop} {i j : Nat} {f? : Option FunctionInfo} {f : FunctionInfo}
  {l? : Option Loop} {bodies : List Body} {out : Nat → Prop}

/-- The jump of a call leads back, as a function is called behind its start only. -/
def Backward (functions : FunctionInfo → Prop) (p : Program) : Prop :=
  ∀ k t, CallJump functions p k → Leads p k t → t ≤ k

theorem Backward.not_call (h : Backward functions p) {k t : Nat} (hholds : Holds p k (.jump t))
    (ht : t < 2 ^ 63) (hlt : k < t) : ¬ CallJump functions p k := fun hc =>
  Nat.not_le.2 hlt (h k t hc ⟨_, hholds, Instruction.jumpTarget?_jump ht⟩)

/-- A jump forward goes where it leads. -/
theorem through_forward (hback : Backward functions p) {k t : Nat} (h : Holds p k (.jump t))
    (ht : t < 2 ^ 63) (hlt : k < t) (hout : out t) : Through functions p f k (k + 1) out := by
  refine through_slot h Instruction.through_jump fun k' hflow => ?_
  rw [hflow.of_jump h ht (hback.not_call h ht hlt)]
  exact hout

/-- **A piece that only computes** is left behind its end. -/
theorem through_computing (hp : tr.Into p) (hknows : Knows tr functions) (h : Span w i j v)
    (hv : Computing v) (hj : j ≤ w.length) :
    Through functions p f (tr.slots i) (tr.slots j) (· = tr.slots j) := by
  have hle := slots_mono hp (span_le h) hj
  have hsmall := slots_small hp hj
  refine ⟨fun k => tr.slots i ≤ k ∧ k < tr.slots j, ⟨fun k hk => hk, fun k hk => ?_, ?_⟩, ?_⟩
  · rcases within_computing hp h hv hj hk.1 hk.2 with
      ⟨hc, hplain⟩ | ⟨hc, -, -⟩ | ⟨hc, -, -⟩ | ⟨-, hcalls, -, rfl⟩
    · exact ⟨_, hc, hplain.through⟩
    · exact ⟨_, hc, Instruction.through_jump⟩
    · exact ⟨_, hc, Instruction.through_jumpIfFalse⟩
    · exact ⟨_, hcalls.2, Instruction.through_jump⟩
  · intro k k' hk hflow
    suffices hin : tr.slots i ≤ k' ∧ k' ≤ tr.slots j by omega
    rcases within_computing hp h hv hj hk.1 hk.2 with
      ⟨hc, hplain⟩ | ⟨hc, ha, hb⟩ | ⟨hc, ha, hb⟩ | ⟨hf, hcalls, ha, hslot⟩
    · have heq := hflow.plain hc hplain
      omega
    · rcases hflow.cases with heq | ⟨hl, -⟩
      · omega
      · have heq := hc.leads_jump (Nat.lt_of_le_of_lt hb hsmall) hl
        omega
    · rcases hflow.of_jumpIfFalse hc (Nat.lt_of_le_of_lt hb hsmall) with heq | heq
      · omega
      · omega
    · -- a call comes back
      have hcall : CallJump functions p k := by
        obtain ⟨f', hf', hbare⟩ := hknows i (Nat.le_trans (span_le h) hj) _ hf
        exact ⟨f', _, hf', hcalls.of_bare hbare, hslot⟩
      rcases hflow.cases with heq | ⟨-, hnot⟩
      · omega
      · exact absurd hcall hnot
  · by_cases heq : tr.slots i = tr.slots j
    · exact .inr ⟨heq, rfl⟩
    · exact .inl ⟨Nat.le_refl _, by omega⟩

/-- A test is left behind its jump, or where that leads. -/
theorem through_test (hp : tr.Into p) (hknows : Knows tr functions) {test : Relation} {target : Nat}
    (h : Tests tr p i j test target) (hsmall : target < 2 ^ 63) :
    Through functions p f (tr.slots i) (tr.slots j + 1)
      fun k => k = tr.slots j + 1 ∨ k = target := by
  obtain ⟨hspan, condition, st, -, hholds⟩ := h
  have hj := (span_bounds hspan test.marks_ne_nil).2
  have hcode : Through functions p f (tr.slots i) (tr.slots j) (· = tr.slots j) :=
    through_computing hp hknows hspan test.computing hj
  exact hcode.seq (through_slot hholds Instruction.through_jumpIfFalse fun k hflow =>
    hflow.of_jumpIfFalse hholds hsmall) (slots_mono hp (span_le hspan) hj) (Nat.le_succ _)
      fun k hk => .inl hk

/-- Nothing comes behind a jump through the return cell. -/
theorem through_return {k : Nat} (h : Holds p k (.jumpThrough f.returnCell)) :
    Through functions p f k (k + 1) out :=
  through_slot h Instruction.through_jumpThrough fun _ hflow =>
    absurd hflow (not_flows_jumpThrough h)

/-- The code that leaves a function with a value goes on nowhere. -/
theorem through_leaves {value : Operand} (h : LeavesWith tr p i j f value) :
    Through functions p f (tr.slots i) (tr.slots j) out := by
  obtain ⟨hassign, hthrough, hslots⟩ := h
  have hplain : (Instruction.assign value (.direct f.result)).Plain := Instruction.plain_assign _ _
  have hfirst : Through functions p f (tr.slots i) (tr.slots i + 1) (· = tr.slots i + 1) :=
    through_slot hassign hplain.through fun k hflow => hflow.plain hassign hplain
  rw [hslots]
  exact hfirst.seq (through_return hthrough) (Nat.le_succ _) (Nat.le_succ _)
    fun k hk => .inl hk

/-- **No path leads out of the body,** and one that begins at its start stays in it. -/
def Body.Closed (functions : FunctionInfo → Prop) (p : Program) (B : Body) : Prop :=
  Through functions p B.function B.start B.behind fun _ => False

/-- Where the paths through a statement leave it: at its end, if it does not always leave its
function, and at the ends of the loop around it. -/
def Left (returns : Bool) (behind : Nat) (l? : Option Loop) (k : Nat) : Prop :=
  (k = behind ∧ returns = false) ∨ k ∈ loopEnds l?

/-- **Where paths lead** in a statement or a block of a function, and in the bodies in it. -/
structure Routed (tr : Trace E w) (p : Program) (functions : FunctionInfo → Prop)
    (f? : Option FunctionInfo) (l? : Option Loop) (i j : Nat) (returns : Bool)
    (bodies : List Body) : Prop where
  closed : ∀ B ∈ bodies, B.Closed functions p
  paths : ∀ f, f? = some f →
    Through functions p f (tr.slots i) (tr.slots j) (Left returns (tr.slots j) l?)

end Paths

section Routing

variable {E : Setting} {w : List Mark} {tr : Trace E w} {p : Program}
  {functions : FunctionInfo → Prop} {i j : Nat} {f? : Option FunctionInfo} {l? : Option Loop}
  {bodies : List Body}

/-- What is shown of a block, wherever its marks stand. -/
def BlockRouted (tr : Trace E w) (p : Program) (functions : FunctionInfo → Prop) (b : Block) :
    Prop :=
  ∀ {f? : Option FunctionInfo} {l? : Option Loop} {i j : Nat} {bodies : List Body},
    blockLaid tr p b f? l? i j bodies → j ≤ w.length → (∀ t ∈ loopEnds l?, t < 2 ^ 63) →
      Routed tr p functions f? l? i j (returnsFrom b) bodies

theorem routed_simple (hp : tr.Into p) (hknows : Knows tr functions) {s : Statement}
    (hs : s.isSimple = true) (h : s.Laid tr p f? l? i j bodies) (hj : j ≤ w.length) :
    Routed tr p functions f? l? i j s.returns bodies := by
  obtain ⟨rfl, hspan⟩ := Statement.laid_simple hs h
  have hfalse : s.returns = false := by cases s <;> first | rfl | cases hs
  exact
    { closed := nofun
      paths := fun f _ => (through_computing hp hknows hspan (Statement.computing hs) hj).mono
        fun k hk => .inl ⟨hk, hfalse⟩ }

theorem routed_returnValue (hp : tr.Into p) (hknows : Knows tr functions) (e : Expr)
    (h : (Statement.returnValue e).Laid tr p f? l? i j bodies) :
    Routed tr p functions f? l? i j true bodies := by
  obtain ⟨rfl, n, value, st, hspan, -, hslots, rfl, hleaves⟩ := h
  have hn := (span_bounds hspan e.marks_ne_nil).2
  have hle := slots_mono hp (span_le hspan) hn
  rw [hslots] at hle
  cases f? with
  | none => exact ⟨nofun, nofun⟩
  | some f =>
    have hend : tr.slots (n + 1) = tr.slots n + 2 := hleaves.2.2
    refine ⟨nofun, ?_⟩
    rintro _ ⟨⟩
    have hcode : Through functions p f (tr.slots (i + 1)) (tr.slots n) (· = tr.slots n) :=
      through_computing hp hknows hspan e.computing hn
    rw [hslots] at hcode
    exact hcode.seq (through_leaves hleaves) hle (by omega) fun k hk => .inl hk

theorem routed_returnNothing (h : Statement.returnNothing.Laid tr p f? l? i j bodies) :
    Routed tr p functions f? l? i j true bodies := by
  obtain ⟨rfl, -, hleaves⟩ := h
  cases f? with
  | none => exact ⟨nofun, nofun⟩
  | some f =>
    obtain ⟨hholds, hslots⟩ := hleaves
    refine ⟨nofun, ?_⟩
    rintro _ ⟨⟩
    rw [hslots]
    exact through_return hholds

theorem routed_leave (exit : Exit) (h : (Statement.leave exit).Laid tr p f? l? i j bodies)
    (hl : ∀ t ∈ loopEnds l?, t < 2 ^ 63) : Routed tr p functions f? l? i j false bodies := by
  cases l? with
  | none =>
    obtain ⟨rfl, -, hslots, -⟩ := h
    refine ⟨nofun, fun f _ => ?_⟩
    rw [hslots]
    exact through_nil (.inl ⟨rfl, rfl⟩)
  | some l =>
    obtain ⟨rfl, -, hslots, hholds⟩ := h
    have htarget : l.target exit ∈ loopEnds (some l) := by
      cases exit <;> simp [Loop.target, loopEnds]
    refine ⟨nofun, fun f _ => ?_⟩
    rw [hslots]
    refine through_slot hholds Instruction.through_jump fun k hflow => ?_
    rcases hflow.cases with rfl | ⟨hlead, -⟩
    · exact .inl ⟨rfl, rfl⟩
    · obtain rfl := hholds.leads_jump (hl _ htarget) hlead
      exact .inr htarget

theorem routed_ifThen (hp : tr.Into p) (hknows : Knows tr functions) (test : Relation)
    (body : Block) (ih : BlockRouted tr p functions body)
    (h : (Statement.ifThen test body).Laid tr p f? l? i j bodies) (hj : j ≤ w.length)
    (hl : ∀ t ∈ loopEnds l?, t < 2 ^ 63) :
    Routed tr p functions f? l? i j false bodies := by
  obtain ⟨c, n, htest, hfirst, hnext, hbody, hslots, rfl⟩ := h
  have hmarks := block_le body hbody
  have hsmall := slots_small hp hj
  have hle := slots_mono hp (span_le htest.1) (by omega)
  have hle' := slots_mono hp hmarks (by omega)
  have hinner := ih hbody (by omega) hl
  refine ⟨hinner.closed, fun f hf => ?_⟩
  have hhead : Through functions p f (tr.slots (i + 1)) (tr.slots c + 1)
      fun k => k = tr.slots c + 1 ∨ k = tr.slots (n + 1) := through_test hp hknows htest hsmall
  have hpaths := hinner.paths f hf
  rw [hfirst] at hhead hle
  rw [hnext] at hpaths hle'
  rw [hslots] at hhead ⊢
  refine hhead.seq (hpaths.mono fun k hk => ?_) (by omega) hle' fun k hk => ?_
  · exact hk.imp_left fun hk => ⟨hk.1, rfl⟩
  · exact hk.imp_right fun hk => .inl ⟨hk, rfl⟩

theorem routed_ifElse (hp : tr.Into p) (hknows : Knows tr functions)
    (hback : Backward functions p) (test : Relation) (body other : Block)
    (ih : BlockRouted tr p functions body) (ih' : BlockRouted tr p functions other)
    (h : (Statement.ifElse test body other).Laid tr p f? l? i j bodies) (hj : j ≤ w.length)
    (hl : ∀ t ∈ loopEnds l?, t < 2 ^ 63) :
    Routed tr p functions f? l? i j false bodies := by
  obtain ⟨c, n, m, bodies₁, bodies₂, rfl, htest, hfirst, hnext, hbody, hjump, hnext', hother, hslots,
    rfl⟩ := h
  have hmarks := block_le body hbody
  have hmarks' := block_le other hother
  have hsmall := slots_small hp hj
  have hle := slots_mono hp (span_le htest.1) (by omega)
  have hle₁ := slots_mono hp hmarks (by omega)
  have hle₂ := slots_mono hp hmarks' (by omega)
  have hinner := ih hbody (by omega) hl
  have hinner' := ih' hother (by omega) hl
  refine ⟨fun B hB => (List.mem_append.1 hB).elim (hinner.closed B) (hinner'.closed B), fun f hf => ?_⟩
  rw [hslots] at hsmall hjump ⊢
  have hhead : Through functions p f (tr.slots (i + 1)) (tr.slots c + 1)
      fun k => k = tr.slots c + 1 ∨ k = tr.slots n + 1 := through_test hp hknows htest (by omega)
  have hpaths := hinner.paths f hf
  have hpaths' := hinner'.paths f hf
  rw [hfirst] at hhead hle
  rw [hnext] at hpaths hle₁
  rw [hnext'] at hpaths' hle₂
  have hskip : Through functions p f (tr.slots n) (tr.slots n + 1) (· = tr.slots m) :=
    through_forward hback hjump hsmall (by omega) rfl
  -- the condition leads over the first branch, which leads to the jump over the other one
  have hbranch : Through functions p f (tr.slots i) (tr.slots n)
      fun k => k = tr.slots n ∨ k = tr.slots n + 1 ∨ k ∈ loopEnds l? := by
    refine hhead.seq (hpaths.mono fun k hk => ?_) (by omega) hle₁ fun k hk => ?_
    · exact hk.imp And.left .inr
    · exact hk.imp_right fun hk => .inr (.inl hk)
  have hbranches : Through functions p f (tr.slots i) (tr.slots n + 1)
      fun k => k = tr.slots n + 1 ∨ Left false (tr.slots m) l? k := by
    refine hbranch.seq (hskip.mono fun k hk => .inr (.inl ⟨hk, rfl⟩)) (by omega) (Nat.le_succ _)
      fun k hk => ?_
    exact hk.imp_right fun hk => hk.imp_right .inr
  refine hbranches.seq (hpaths'.mono fun k hk => ?_) (by omega) hle₂ fun k hk => hk
  exact hk.imp_left fun hk => ⟨hk.1, rfl⟩

theorem routed_loop (hp : tr.Into p) (hknows : Knows tr functions) (test : Relation) (body : Block)
    (ih : BlockRouted tr p functions body)
    (h : (Statement.loop test body).Laid tr p f? l? i j bodies) (hj : j ≤ w.length) :
    Routed tr p functions f? l? i j false bodies := by
  obtain ⟨c, n, htest, hfirst, hnext, hbody, hjump, hslots, rfl⟩ := h
  have hmarks := block_le body hbody
  have hsmall := slots_small hp hj
  have hle := slots_mono hp (span_le htest.1) (by omega)
  have hle' := slots_mono hp hmarks (by omega)
  have hinner := ih hbody (by omega) (fun t ht => by
    rcases List.mem_cons.1 ht with rfl | ht
    · dsimp only
      omega
    · obtain rfl := List.mem_singleton.1 ht
      exact hsmall)
  refine ⟨hinner.closed, fun f hf => ?_⟩
  have hhead : Through functions p f (tr.slots (i + 3)) (tr.slots c + 1)
      fun k => k = tr.slots c + 1 ∨ k = tr.slots (n + 1) := through_test hp hknows htest hsmall
  have hpaths := hinner.paths f hf
  rw [hfirst] at hhead hle
  rw [hnext] at hpaths hle'
  rw [hslots] at hhead hpaths ⊢
  -- a path leaves the slots of the loop behind them, or goes on at its condition
  have hout : ∀ k, k = tr.slots i ∨ k = tr.slots n + 1 →
      k = tr.slots i ∨ Left false (tr.slots n + 1) l? k :=
    fun k hk => hk.imp_right fun hk => .inl ⟨hk, rfl⟩
  have hturn : Through functions p f (tr.slots n) (tr.slots n + 1)
      fun k => k = tr.slots i ∨ k = tr.slots n + 1 := by
    refine through_slot hjump Instruction.through_jump fun k hflow => ?_
    rcases hflow.cases with hk | ⟨hlead, -⟩
    · exact .inr hk
    · exact .inl (hjump.leads_jump (by omega) hlead)
  have hturns : Through functions p f (tr.slots c + 1) (tr.slots n + 1)
      fun k => k = tr.slots i ∨ k = tr.slots n + 1 := by
    refine hpaths.seq hturn hle' (Nat.le_succ _) fun k hk => ?_
    rcases hk with ⟨hk, -⟩ | hk
    · exact .inl hk
    · rcases List.mem_cons.1 hk with rfl | hk
      · exact .inr (.inl rfl)
      · exact .inr (.inr (List.mem_singleton.1 hk))
  refine (hhead.seq (hturns.mono hout) (by omega) (by omega) fun k hk => ?_).again (by omega)
  exact hk.imp_right fun hk => hout k (.inr hk)

/-- **The body of a definition is closed:** what does not always return before returns at its end. -/
theorem routed_define (hp : tr.Into p) (hback : Backward functions p) (x : String)
    (params : List String) (body : Block) (ih : BlockRouted tr p functions body)
    (h : (Statement.define x params body).Laid tr p f? l? i j bodies) (hj : j ≤ w.length) :
    Routed tr p functions f? l? i j false bodies := by
  obtain ⟨f, n, m, inner, rfl, hin, rfl, haround, hstart, hfirst, hbody, hend, -⟩ := h
  have hmarks := block_le body hbody
  have hsmall := slots_small hp hj
  have hle := slots_mono hp hmarks (by omega)
  have hinner : Routed tr p functions (some f) none n m (returnsFrom body) inner :=
    ih hbody (by omega) nofun
  have hpaths := hinner.paths f rfl
  rw [hfirst] at hpaths hle
  have hclosed : Body.Closed functions p ⟨f, tr.slots (m + 2)⟩ := by
    change Through functions p f f.start (tr.slots (m + 2)) fun _ => False
    split at hend
    · rename_i hreturns
      rw [hend]
      refine hpaths.mono fun k hk => ?_
      rcases hk with ⟨-, hk⟩ | hk
      · rw [hreturns] at hk
        cases hk
      · exact absurd hk List.not_mem_nil
    · refine hpaths.seq (through_leaves hend) hle (by rw [hend.2.2]; omega) fun k hk => ?_
      exact hk.imp And.left fun hk => absurd hk List.not_mem_nil
  have hbehind : tr.slots i < tr.slots (m + 2) := by
    split at hend
    · omega
    · rw [hend.2.2]
      omega
  refine ⟨fun B hB => ?_, fun f' _ => ?_⟩
  · rcases List.mem_cons.1 hB with rfl | hB
    · exact hclosed
    · exact hinner.closed B hB
  · -- the jump around the body leads behind it
    exact (through_forward hback haround hsmall hbehind (.inl ⟨rfl, rfl⟩)).skip (Nat.lt_succ_self _)
      hbehind

mutual

/-- **Every statement leads paths to its end,** or to the ends of the loop around it, unless it always
leaves its function. -/
theorem Statement.routed (hp : tr.Into p) (hknows : Knows tr functions)
    (hback : Backward functions p) : ∀ (s : Statement) {f? : Option FunctionInfo}
    {l? : Option Loop} {i j : Nat} {bodies : List Body}, s.Laid tr p f? l? i j bodies →
      j ≤ w.length → (∀ t ∈ loopEnds l?, t < 2 ^ 63) →
        Routed tr p functions f? l? i j s.returns bodies
  | .assign .., _, _, _, _, _, h, hj, _ => routed_simple hp hknows rfl h hj
  | .assignElement .., _, _, _, _, _, h, hj, _ => routed_simple hp hknows rfl h hj
  | .call .., _, _, _, _, _, h, hj, _ => routed_simple hp hknows rfl h hj
  | .global _, _, _, _, _, _, h, hj, _ => routed_simple hp hknows rfl h hj
  | .print _, _, _, _, _, _, h, hj, _ => routed_simple hp hknows rfl h hj
  | .returnValue e, _, _, _, _, _, h, _, _ => routed_returnValue hp hknows e h
  | .returnNothing, _, _, _, _, _, h, _, _ => routed_returnNothing h
  | .leave exit, _, _, _, _, _, h, _, hl => routed_leave exit h hl
  | .define x params body, _, _, _, _, _, h, hj, _ =>
    routed_define hp hback x params body (block_routed hp hknows hback body) h hj
  | .ifThen test body, _, _, _, _, _, h, hj, hl =>
    routed_ifThen hp hknows test body (block_routed hp hknows hback body) h hj hl
  | .ifElse test body other, _, _, _, _, _, h, hj, hl =>
    routed_ifElse hp hknows hback test body other (block_routed hp hknows hback body)
      (block_routed hp hknows hback other) h hj hl
  | .loop test body, _, _, _, _, _, h, hj, _ =>
    routed_loop hp hknows test body (block_routed hp hknows hback body) h hj

/-- **So does every block,** of which nothing is reached behind a statement that always leaves. -/
theorem block_routed (hp : tr.Into p) (hknows : Knows tr functions)
    (hback : Backward functions p) : ∀ (b : List Statement), BlockRouted tr p functions b
  | [], f?, l?, i, j, bodies, h, _, _ => by
    obtain ⟨rfl, rfl⟩ := h
    exact ⟨nofun, fun _ _ => through_nil (.inl ⟨rfl, rfl⟩)⟩
  | s :: rest, f?, l?, i, j, bodies, h, hj, hl => by
    obtain ⟨n, bodies₁, bodies₂, rfl, hs, hnext, hrest⟩ := h
    have hmarks := Statement.laid_le s hs
    have hmarks' := block_le rest hrest
    have hle' := slots_mono hp hmarks' hj
    rw [hnext] at hle'
    have hfirst := Statement.routed hp hknows hback s hs (by omega) hl
    have hsecond := block_routed hp hknows hback rest hrest hj hl
    have hany : returnsFrom (s :: rest) = (s.returns || returnsFrom rest) := List.any_cons
    refine ⟨fun B hB => (List.mem_append.1 hB).elim (hfirst.closed B) (hsecond.closed B), ?_⟩
    rintro f rfl
    have hpaths := hfirst.paths f rfl
    have hpaths' := hsecond.paths f rfl
    rw [hnext] at hpaths'
    cases hreturns : s.returns with
    | true =>
      -- the rest is not reached
      refine (hpaths.mono fun k hk => ?_).skip (Statement.slots_lt_of_returns hp hreturns hs) hle'
      refine hk.imp_left fun ⟨_, hfalse⟩ => ?_
      rw [hreturns] at hfalse
      cases hfalse
    | false =>
      rw [hany, hreturns, Bool.false_or]
      exact hpaths.seq hpaths' (slots_mono hp hmarks (by omega)) hle' fun k hk =>
        hk.imp And.left .inr

end

end Routing

end OnePass.Syntax

namespace OnePass.Emission

open Names Target

/-- A function of the outermost scope can be called from there. -/
theorem visible_of_functionsIn {t : SymbolTable} {name : String} {row : Nat} {f : FunctionInfo}
    (ht : t.Orderly) (hcurrent : t.currentScope = Scopes.outermost)
    (hrow : row ∈ t.functionsIn Scopes.outermost name) (hf : t.function? row = some f) :
    t.Visible f := by
  refine ⟨row, _, hf, SymbolTable.scope?_of_mem_ownRows (List.mem_filter.1 hrow).1, ?_⟩
  have hlt : t.scopes.current < t.scopes.all.size := ht.nested.current
  rw [← hcurrent, SymbolTable.currentScope, Scopes.enclosing.eq_def,
    Array.getElem?_eq_getElem hlt]
  exact List.mem_cons_self

/-- **The end of a program** calls the latest `main` at top level, if there is one. -/
theorem ends_callMain_eq {g : Generator} {line : Nat} : Ends (callMain line) g fun _ g' =>
    g'.symbols = g.symbols ∧
      (g'.memory.program = g.memory.program ∨
        ∃ row ∈ g.symbols.functionsIn Scopes.outermost mainName, ∃ f,
          g.symbols.function? row = some f ∧
            g'.memory.program = (g.memory.program.push (some (.assign
              (.immediate (g.programNext + 2)) (.direct f.returnCell)))).push
                (some (.jump f.start))) := by
  simp only [callMain, ends_bind, ends_get]
  split
  · rename_i row hrow
    simp only [ends_bind]
    refine ends_functionOn.mono ?_
    rintro f g₁ ⟨rfl, hf⟩
    refine ends_jumpInto.mono ?_
    rintro _ g₂ rfl
    exact ⟨rfl, .inr ⟨row, List.mem_of_head? hrow, f, hf, rfl⟩⟩
  · exact ends_report.2 ⟨rfl, .inl rfl⟩

end OnePass.Emission

namespace OnePass.Derivation

open Emission Names Target Syntax
open Grammar (Mark)
open Machine

/-- What stands behind a program is the call of `main`. -/
theorem called_of_ends {E : Setting} {w : List Mark} {tr : Trace E w} {g : Generator} {k t : Nat}
    (hp : tr.Into g.memory.program) (hcurrent : (tr.state w.length).currentScope = Scopes.outermost)
    (hprogram : g.memory.program = (tr.state w.length).memory.program ∨
      ∃ row ∈ (tr.state w.length).symbols.functionsIn Scopes.outermost mainName, ∃ f,
        (tr.state w.length).symbols.function? row = some f ∧
          g.memory.program = ((tr.state w.length).memory.program.push (some (.assign
            (.immediate ((tr.state w.length).programNext + 2)) (.direct f.returnCell)))).push
              (some (.jump f.start)))
    (hk : tr.slots w.length ≤ k) (hl : Leads g.memory.program k t) :
    Called tr g.memory.program w.length k t := by
  have hend := hp.ordered (Nat.le_refl _)
  have hlt : k < g.memory.program.size := by
    obtain ⟨i, hi, -⟩ := hl
    exact (Array.getElem?_eq_some_iff.1 hi).1
  rcases hprogram with hsame | ⟨row, hrow, f, hf, hpush⟩
  · rw [hsame] at hlt
    exact absurd hlt (Nat.not_lt.2 hk)
  · have hcalls : Calls g.memory.program (tr.slots w.length) f := by
      rw [hpush]
      exact calls_push _ f
    have hvisible := visible_of_functionsIn hend hcurrent hrow hf
    have hsmall := Nat.lt_of_le_of_lt (hp.start_le (Nat.le_refl _) hf)
      (slots_small hp (Nat.le_refl _))
    have hsize : g.memory.program.size = tr.slots w.length + 2 := by
      rw [hpush, Array.size_push, Array.size_push, tr.slots_eq]
    by_cases hfirst : k = tr.slots w.length
    · subst hfirst
      exact absurd hl (Holds.not_leads hcalls.1 (Instruction.plain_assign _ _).jumpTarget?)
    · obtain rfl : k = tr.slots w.length + 1 := by omega
      obtain rfl := Holds.leads_jump hcalls.2 hsmall hl
      exact ⟨w.length, f, _, Nat.le_refl _, Nat.le_refl _, hvisible, hcalls, rfl, Nat.le_refl _, rfl⟩

/-- There is no program yet where a text begins, at the top level. -/
theorem empty_begun (config : Config) (source : String) :
    (begun config source).generator.programNext = 0 ∧
      (begun config source).generator.currentScope = Scopes.outermost := by
  rcases generator_begun config source with heq | ⟨-, heq⟩
  · rw [heq]
    exact ⟨rfl, rfl⟩
  · rw [heq]
    exact ⟨rfl, congrArg Scopes.current (SymbolTable.scopes_record _ _)⟩

/-- **Calls lead back,** where nothing but calls from behind leads into the bodies. -/
theorem backward_of_spares {functions : FunctionInfo → Prop} {p : Program} {bodies : List Body}
    (hbody : ∀ f, functions f → ∃ B ∈ bodies, B.function = f.bare)
    (hinside : ∀ B ∈ bodies, B.start < B.behind ∧ B.start < 2 ^ 63)
    (hspares : ∀ B ∈ bodies, ∀ k t, (k < B.start ∨ B.behind ≤ k) → Leads p k t →
      B.start ≤ t → t < B.behind → t = B.start ∧ CallJump functions p k ∧ t ≤ k) :
    Backward functions p := by
  intro k t hc hl
  obtain ⟨f, hf, hholds⟩ := hc.holds
  obtain ⟨B, hB, hfun⟩ := hbody f hf
  obtain ⟨hlt, hsmall⟩ := hinside B hB
  have hself : B.start = f.start := by rw [Body.start, hfun, FunctionInfo.start_bare]
  obtain rfl := hholds.leads_jump (hself ▸ hsmall) hl
  by_cases hk : B.start ≤ k ∧ k < B.behind
  · omega
  · exact (hspares B hB k _ (by omega) hl (Nat.le_of_eq hself) (by omega)).2.2

/-- **Bodies are closed.** The body of a function begins behind the jump around it, which leads to its
exit. A path that begins at its start stays in it: it comes to instructions of the body only, and
ends, if it does, at a jump through the return cell of the function. Nothing outside of the body
leads into it, but the jumps of calls, which lead to its start. A text and a program are held in
memory, so that both lengths are words. -/
theorem bodies_closed_of_parse {config : Config} {source : String} {o : Outcome} {g : Generator}
    (h : parse config source = .ok o) (he : o.syntaxErrors = []) (hsource : source.length < 2 ^ 63)
    (hmain : callMain o.lastLine o.generator = .ok () g) (hsize : g.programNext < 2 ^ 63) :
    let p := g.memory.program
    let functions := fun f => ∃ row, g.symbols.function? row = some f
    ∀ f, functions f → ∃ around exit, Holds p around (.jump exit) ∧ f.start = around + 1 ∧
      (∀ k, Relation.ReflTransGen (Flows functions p) f.start k →
        f.start ≤ k ∧ k < exit ∧ ∃ i, Holds p k i ∧ i.Through f.returnCell) ∧
      ∀ k t, (k < f.start ∨ exit ≤ k) → Leads p k t → f.start ≤ t → t < exit →
        t = f.start ∧ CallJump functions p k := by
  intro p functions f hf
  obtain ⟨hsymbols, hprogram⟩ := ends_callMain_eq () g hmain
  have hext : Extends (fun _ => True) o.generator.memory.program p := by
    rcases hprogram with hsame | ⟨_, -, _, -, hpush⟩
    · exact hsame ▸ .refl _ _
    · change Extends _ _ g.memory.program
      rw [hpush]
      exact (Extends.push_some trivial).trans (.push_some trivial)
  obtain ⟨b, tr, bodies, -, -, hp, hstart, hend, hlaid, hpasses⟩ :=
    exists_laid h he hsource hext hsize
  rw [← hend] at hsymbols hprogram
  have hlen : (blockMarks b).length ≤ (blockMarks b).length := Nat.le_refl _
  have hknows : Knows tr functions := by
    rintro n hn f' ⟨row, -, hrow, -⟩
    obtain ⟨f'', hf'', hbare⟩ := (hp.later hn hlen).kept row f' hrow
    exact ⟨f'', ⟨row, hsymbols ▸ hf''⟩, hbare⟩
  have hframed : Framed tr p functions [] 0 (blockMarks b).length (tr.slots 0)
      (tr.slots (blockMarks b).length) bodies := block_framed hp hknows b hlaid hlen around_none
  obtain ⟨hzero, houtermost⟩ := empty_begun config source
  have hfirst : tr.slots 0 = 0 := (congrArg Generator.programNext hstart).trans hzero
  have hcurrent : (tr.state (blockMarks b).length).currentScope = Scopes.outermost := by
    rw [hend, hpasses.current, houtermost]
  -- what stands behind the text calls `main`, which no body hides
  have hspares : ∀ B ∈ bodies, ∀ k t, (k < B.start ∨ B.behind ≤ k) → Leads p k t →
      B.start ≤ t → t < B.behind → t = B.start ∧ CallJump functions p k ∧ t ≤ k := by
    intro B hB k t hk hl ht ht'
    by_cases hlt : k < tr.slots (blockMarks b).length
    · exact hframed.spares B hB k t (by omega) hlt hk hl ht ht'
    · exact (called_of_ends hp hcurrent hprogram (Nat.le_of_not_lt hlt) hl).spares hp hknows
        (hframed.hidden B hB) ht ht'
  have hbody : ∀ f', functions f' → ∃ B ∈ bodies, B.function = f'.bare := by
    rintro f' ⟨row, hrow⟩
    rw [hsymbols, hend] at hrow
    rcases hpasses.made row f' hrow with ⟨f₀, hf₀, -⟩ | ⟨hB, -⟩
    · rw [function?_begun] at hf₀
      cases hf₀
    · exact hB
  have hinside : ∀ B ∈ bodies, B.start < B.behind ∧ B.start < 2 ^ 63 := fun B hB => by
    obtain ⟨-, hlt, hle, -⟩ := hframed.inside B hB
    have hsmall := slots_small hp hlen
    exact ⟨hlt, by omega⟩
  have hback := backward_of_spares hbody hinside hspares
  obtain ⟨B, hB, hfun⟩ := hbody f hf
  have hself : B.start = f.start := by rw [Body.start, hfun, FunctionInfo.start_bare]
  have hcell : B.function.returnCell = f.returnCell := by rw [hfun, FunctionInfo.returnCell_bare]
  obtain ⟨hbefore, hlt, -, haround⟩ := hframed.inside B hB
  refine ⟨B.start - 1, B.behind, haround, by omega, ?_, fun k t hk hl ht ht' => ?_⟩
  · intro k hpath
    obtain ⟨inside, hinside, hentry⟩ := (block_routed hp hknows hback b hlaid hlen nofun).closed B hB
    have hin := hinside.reaches (hentry.resolve_right fun ⟨_, hfalse⟩ => hfalse) (hself ▸ hpath)
    obtain ⟨h₁, h₂⟩ := hinside.bounds k hin
    exact ⟨hself ▸ h₁, h₂, hcell ▸ hinside.holds k hin⟩
  · rw [← hself] at hk ht ⊢
    obtain ⟨h₁, h₂, -⟩ := hspares B hB k t hk hl ht ht'
    exact ⟨h₁, h₂⟩

theorem bodies_closed_nested :
    let source := "def main ( ) : def f ( n ) : if n < 1 : return 0 ; ; return f ( n - 1 ) ; ; print ( f ( 2 ) ) ; ;"
    ∃ o g, parse .standard source = .ok o ∧ o.syntaxErrors = [] ∧
      callMain o.lastLine o.generator = .ok () g ∧ g.errors = #[] ∧ g.programNext = 22 ∧
      ∀ f, (∃ row, g.symbols.function? row = some f) → ∃ around exit,
        Holds g.memory.program around (.jump exit) ∧ f.start = around + 1 ∧
          ∀ k, Relation.ReflTransGen
            (Flows (fun f => ∃ row, g.symbols.function? row = some f) g.memory.program) f.start k →
              f.start ≤ k ∧ k < exit := by
  intro source
  -- what the end of the program leaves
  let ended : Emit (Array SemanticError × Nat) := do return ((← get).errors, (← get).programNext)
  have h : (parse .standard source).toOption.map (fun o => (o.syntaxErrors,
      (callMain o.lastLine >>= fun _ => ended).run' o.generator)) =
        some ([], some (#[], 22)) := by
    rw [parse_eq, Grammar.table_eq_ok]
    decide +kernel
  cases ho : parse .standard source with
  | error e =>
    rw [ho] at h
    cases h
  | ok o =>
    rw [ho] at h
    simp only [Except.toOption, Option.map_some, Option.some.injEq, Prod.mk.injEq] at h
    obtain ⟨herrors, hend⟩ := h
    delta EStateM.run' at hend
    cases hmain : callMain o.lastLine o.generator with
    | error e g =>
      simp only [EStateM.run, bind, EStateM.bind, hmain] at hend
      cases hend
    | ok u g =>
      simp only [EStateM.run, bind, EStateM.bind, hmain] at hend
      have hboth : (g.errors, g.programNext) = (#[], 22) := Option.some.inj hend
      obtain ⟨hnone, hsize⟩ := Prod.mk.inj hboth
      refine ⟨o, g, rfl, herrors, hmain, hnone, hsize, fun f hf => ?_⟩
      obtain ⟨around, exit, haround, hstart, hpaths, -⟩ :=
        bodies_closed_of_parse ho herrors (by decide) hmain (by rw [hsize]; decide) f hf
      exact ⟨around, exit, haround, hstart, fun k hk => ⟨(hpaths k hk).1, (hpaths k hk).2.1⟩⟩

end OnePass.Derivation
