import OnePass.Proofs.Syntax.Compiling
import OnePass.Proofs.Target.Flow

/-!
# Nothing leads into a body

Nothing outside of the body of a function leads into it, but calls of the function.

Code is put together from pieces. A piece jumps within itself or to one of its exits, and
the pieces around a body have no exit in it. A call from behind a body cannot see what the
body defines.

* `Framed`: a piece of code with the bodies in it. `Framed.seq`, `Framed.close`.
* `Statement.framed`: every statement is such a piece.
-/

namespace OnePass.Syntax

open OnePass.Derivation Emission Names Target
open Grammar (Action Mark Terminal)

/-- The slot that the body of a function begins at. -/
def Body.start (B : Body) : Nat := B.function.start

/-- The ends of a loop, if there is one. -/
def loopEnds : Option Loop → List Nat
  | some l => [l.start, l.behind]
  | none => []

section Framed

variable {E : Setting} {w : List Mark} (tr : Trace E w) (p : Program)
  (functions : FunctionInfo → Prop)

/-- **The functions of a program:** all that can be called while it is compiled. -/
def Knows : Prop := ∀ n ≤ w.length, ∀ f, (tr.state n).symbols.Visible f →
  ∃ f', functions f' ∧ f'.bare = f.bare

/-- **The jump of a call** that is compiled from a mark on, with the function that is seen there. -/
def Called (i k t : Nat) : Prop :=
  ∃ n f slot, i ≤ n ∧ n ≤ w.length ∧ (tr.state n).symbols.Visible f ∧ Calls p slot f ∧
    k = slot + 1 ∧ tr.slots n ≤ slot ∧ t = f.start

/-- **A piece of code** between two slots, compiled between two marks, with the bodies in it. -/
structure Framed (exits : List Nat) (i j a b : Nat) (bodies : List Body) : Prop where
  marks : i ≤ j
  slots : a ≤ b
  /-- A body lies behind the jump around it. -/
  inside : ∀ B ∈ bodies, a < B.start ∧ B.start < B.behind ∧ B.behind ≤ b ∧
    Holds p (B.start - 1) (.jump B.behind)
  /-- What a body defines cannot be called later. -/
  hidden : ∀ B ∈ bodies, ∀ n, j ≤ n → n ≤ w.length → ∀ f, (tr.state n).symbols.Visible f →
    f.start ≤ B.start ∨ B.behind ≤ f.start
  stays : ∀ k t, a ≤ k → k < b → Leads p k t →
    Called tr p i k t ∨ (a ≤ t ∧ t ≤ b) ∨ t ∈ exits
  /-- Nothing outside of a body leads into it, but calls of its function. -/
  spares : ∀ B ∈ bodies, ∀ k t, a ≤ k → k < b → (k < B.start ∨ B.behind ≤ k) → Leads p k t →
    B.start ≤ t → t < B.behind → t = B.start ∧ CallJump functions p k ∧ t ≤ k

variable {tr p functions} {exits exits' : List Nat} {i j i' j' a b c k : Nat}
  {bodies bodies' : List Body}

theorem Framed.mono (h : Framed tr p functions exits i j a b bodies)
    (hsub : ∀ t ∈ exits, t ∈ exits') : Framed tr p functions exits' i j a b bodies :=
  { h with
    stays := fun k t hk hk' hl => (h.stays k t hk hk' hl).imp_right (Or.imp_right (hsub t)) }

/-- A piece may be said to begin at an earlier mark, and to end at a later one. -/
theorem Framed.widen (h : Framed tr p functions exits i j a b bodies) (hi : i' ≤ i) (hj : j ≤ j') :
    Framed tr p functions exits i' j' a b bodies :=
  { h with
    marks := Nat.le_trans hi (Nat.le_trans h.marks hj)
    hidden := fun B hB n hn => h.hidden B hB n (Nat.le_trans hj hn)
    stays := fun k t hk hk' hl => (h.stays k t hk hk' hl).imp_left
      fun ⟨n, f, slot, hn, hrest⟩ => ⟨n, f, slot, Nat.le_trans hi hn, hrest⟩ }

/-- **An exit that leads into the piece** is none. -/
theorem Framed.close {t : Nat} (h : Framed tr p functions (t :: exits) i j a b bodies) (ha : a ≤ t)
    (hb : t ≤ b) : Framed tr p functions exits i j a b bodies :=
  { h with
    stays := fun k t' hk hk' hl => by
      rcases h.stays k t' hk hk' hl with h | h | h
      · exact .inl h
      · exact .inr (.inl h)
      · rcases List.mem_cons.1 h with rfl | h
        · exact .inr (.inl ⟨ha, hb⟩)
        · exact .inr (.inr h) }

theorem framed_nil (hij : i ≤ j) : Framed tr p functions exits i j a a [] where
  marks := hij
  slots := Nat.le_refl a
  inside _ hB := absurd hB List.not_mem_nil
  hidden _ hB := absurd hB List.not_mem_nil
  stays _ _ h h' := absurd h (Nat.not_le.2 h')
  spares _ hB := absurd hB List.not_mem_nil

/-- **One slot** that names nothing but exits. -/
theorem framed_slot {instruction : Instruction} (hij : i ≤ j) (h : Holds p a instruction)
    (ht : ∀ t, instruction.jumpTarget? = some t → t ∈ exits) :
    Framed tr p functions exits i j a (a + 1) [] where
  marks := hij
  slots := Nat.le_succ a
  inside _ hB := absurd hB List.not_mem_nil
  hidden _ hB := absurd hB List.not_mem_nil
  stays k t hk hk' hl := by
    obtain rfl : k = a := by omega
    exact .inr (.inr (ht t (h.leads hl)))
  spares _ hB := absurd hB List.not_mem_nil

/-- A call from behind a body leads at most to where the body begins. -/
theorem Called.spares (hp : tr.Into p) (hknows : Knows tr functions) {t : Nat} {B : Body}
    (h : Called tr p i k t)
    (hhidden : ∀ n, i ≤ n → n ≤ w.length → ∀ f, (tr.state n).symbols.Visible f →
      f.start ≤ B.start ∨ B.behind ≤ f.start)
    (ht : B.start ≤ t) (ht' : t < B.behind) : t = B.start ∧ CallJump functions p k ∧ t ≤ k := by
  obtain ⟨n, f, slot, hn, hlen, hv, hcalls, rfl, hslot, rfl⟩ := h
  obtain ⟨f', hf', hbare⟩ := hknows n hlen f hv
  refine ⟨?_, ⟨f', slot, hf', hcalls.of_bare hbare, rfl⟩, ?_⟩
  · rcases hhidden n hn hlen f hv with hle | hle
    · exact Nat.le_antisymm hle ht
    · exact absurd ht' (Nat.not_lt.2 hle)
  · obtain ⟨row, s, hrow, -⟩ := hv
    have hle := hp.start_le hlen hrow
    have hnext : tr.slots n = (tr.state n).programNext := rfl
    omega

/-- A call comes behind where its function begins. -/
theorem Called.start_le (hp : tr.Into p) {t : Nat} (h : Called tr p i k t) : t < k := by
  obtain ⟨n, f, slot, -, hlen, ⟨row, s, hrow, -⟩, -, rfl, hslot, rfl⟩ := h
  have hle := hp.start_le hlen hrow
  have hnext : tr.slots n = (tr.state n).programNext := rfl
  omega

/-- **One piece behind another,** with no exit in any of their bodies. -/
theorem Framed.seq (hp : tr.Into p) (hknows : Knows tr functions)
    (h : Framed tr p functions exits i j a b bodies)
    (h' : Framed tr p functions exits i' j' b c bodies') (hmarks : j ≤ i')
    (hexits : ∀ t ∈ exits, ∀ B ∈ bodies ++ bodies', t < B.start ∨ B.behind ≤ t) :
    Framed tr p functions exits i j' a c (bodies ++ bodies') where
  marks := Nat.le_trans h.marks (Nat.le_trans hmarks h'.marks)
  slots := Nat.le_trans h.slots h'.slots
  inside B hB := by
    rcases List.mem_append.1 hB with hB | hB
    · obtain ⟨h₁, h₂, h₃, h₄⟩ := h.inside B hB
      exact ⟨h₁, h₂, Nat.le_trans h₃ h'.slots, h₄⟩
    · obtain ⟨h₁, h₂, h₃, h₄⟩ := h'.inside B hB
      exact ⟨Nat.lt_of_le_of_lt h.slots h₁, h₂, h₃, h₄⟩
  hidden B hB n hn := by
    rcases List.mem_append.1 hB with hB | hB
    · exact h.hidden B hB n (Nat.le_trans hmarks (Nat.le_trans h'.marks hn))
    · exact h'.hidden B hB n hn
  stays k t hk hk' hl := by
    have hab := h.slots
    have hbc := h'.slots
    by_cases hkb : k < b
    · rcases h.stays k t hk hkb hl with h | ⟨h₁, h₂⟩ | h
      · exact .inl h
      · exact .inr (.inl ⟨h₁, by omega⟩)
      · exact .inr (.inr h)
    · rcases h'.stays k t (by omega) hk' hl with h' | ⟨h₁, h₂⟩ | h'
      · obtain ⟨n, f, slot, hn, hrest⟩ := h'
        have hi := h.marks
        exact .inl ⟨n, f, slot, by omega, hrest⟩
      · exact .inr (.inl ⟨by omega, h₂⟩)
      · exact .inr (.inr h')
  spares B hB k t hk hk' hout hl ht ht' := by
    have havoid : t ∉ exits := fun hc => by
      have hsides := hexits t hc B hB
      omega
    by_cases hkb : k < b
    · rcases List.mem_append.1 hB with hB | hB
      · exact h.spares B hB k t hk hkb hout hl ht ht'
      · -- the body comes behind
        have hafter := (h'.inside B hB).1
        rcases h.stays k t hk hkb hl with hcalled | ⟨-, hle⟩ | hc
        · have hlt := hcalled.start_le hp
          omega
        · omega
        · exact absurd hc havoid
    · rcases List.mem_append.1 hB with hB | hB
      · -- the body comes before
        have hbefore := (h.inside B hB).2.2.1
        rcases h'.stays k t (by omega) hk' hl with hcalled | ⟨hle, -⟩ | hc
        · exact hcalled.spares hp hknows
            (fun n hn => h.hidden B hB n (Nat.le_trans hmarks hn)) ht ht'
        · omega
        · exact absurd hc havoid
      · exact h'.spares B hB k t (by omega) hk' hout hl ht ht'

/-- What is not within a piece is in none of its bodies. -/
theorem Framed.avoids (h : Framed tr p functions exits i j a b bodies) {t : Nat}
    (ht : t ≤ a ∨ b ≤ t) : ∀ B ∈ bodies, t < B.start ∨ B.behind ≤ t := fun B hB => by
  obtain ⟨h₁, -, h₂, -⟩ := h.inside B hB
  omega

end Framed

section Code

variable {E : Setting} {w v : List Mark} {tr : Trace E w} {p : Program}
  {functions : FunctionInfo → Prop} {exits : List Nat} {i j : Nat} {f? : Option FunctionInfo}
  {l? : Option Loop} {bodies : List Body}

theorem span_le (h : Span w i j v) : i ≤ j := by
  rw [h.eq_add]
  exact Nat.le_add_right _ _

theorem span_bounds (h : Span w i j v) (hv : v ≠ []) : i < w.length ∧ j ≤ w.length := by
  induction v generalizing i with
  | nil => exact absurd rfl hv
  | cons k v ih =>
    have hlt := (List.getElem?_eq_some_iff.1 h.1).1
    refine ⟨hlt, ?_⟩
    cases v with
    | nil =>
      obtain rfl : i + 1 = j := h.2
      exact hlt
    | cons k' v => exact (ih h.2 (List.cons_ne_nil _ _)).2

theorem Relation.marks_ne_nil (r : Relation) : r.marks ≠ [] := by simp [Relation.marks]

theorem Expr.marks_ne_nil (e : Expr) : e.marks ≠ [] := by cases e <;> simp [Expr.marks]

/-- Every slot is one of the program. -/
theorem slots_le (hp : tr.Into p) (hj : j ≤ w.length) : tr.slots j ≤ p.size := (hp.extends hj).size

theorem slots_small (hp : tr.Into p) (hj : j ≤ w.length) : tr.slots j < 2 ^ 63 :=
  Nat.lt_of_le_of_lt (slots_le hp hj) hp.small

theorem slots_mono (hp : tr.Into p) {n : Nat} (hij : i ≤ n) (hn : n ≤ w.length) :
    tr.slots i ≤ tr.slots n := (hp.later hij hn).program

theorem Statement.laid_simple {s : Statement} (hs : s.isSimple = true)
    (h : s.Laid tr p f? l? i j bodies) : bodies = [] ∧ Span w i j s.marks := by
  cases s with
  | assign | assignElement | call | global | print => exact h
  | _ => cases hs

mutual

/-- The marks of a statement come in their order. -/
theorem Statement.laid_le : ∀ (s : Statement) {f? : Option FunctionInfo} {l? : Option Loop}
    {i j : Nat} {bodies : List Body}, s.Laid tr p f? l? i j bodies → i ≤ j
  | .assign .., _, _, _, _, _, h => span_le h.2
  | .assignElement .., _, _, _, _, _, h => span_le h.2
  | .call .., _, _, _, _, _, h => span_le h.2
  | .global _, _, _, _, _, _, h => span_le h.2
  | .print _, _, _, _, _, _, h => span_le h.2
  | .returnValue _, _, _, _, _, _, h => by
    obtain ⟨-, n, _, _, hspan, -, -, rfl, -⟩ := h
    have hle := span_le hspan
    omega
  | .returnNothing, _, _, _, _, _, h => span_le h.2.1
  | .leave _, _, some _, _, _, _, h => span_le h.2.1
  | .leave _, _, none, _, _, _, h => span_le h.2.1
  | .define _ _ body, _, _, _, _, _, h => by
    obtain ⟨f, n, m, inner, -, hin, rfl, -, -, -, hbody, -⟩ := h
    have hle := block_le body hbody
    omega
  | .ifThen _ body, _, _, _, _, _, h => by
    obtain ⟨c, n, ⟨htest, -⟩, -, -, hbody, -, rfl⟩ := h
    have hle := span_le htest
    have hle' := block_le body hbody
    omega
  | .ifElse _ body other, _, _, _, _, _, h => by
    obtain ⟨c, n, m, _, _, -, ⟨htest, -⟩, -, -, hbody, -, -, hother, -, rfl⟩ := h
    have hle := span_le htest
    have hle' := block_le body hbody
    have hle'' := block_le other hother
    omega
  | .loop _ body, _, _, _, _, _, h => by
    obtain ⟨c, n, ⟨htest, -⟩, -, -, hbody, -, -, rfl⟩ := h
    have hle := span_le htest
    have hle' := block_le body hbody
    omega

theorem block_le : ∀ (b : List Statement) {f? : Option FunctionInfo} {l? : Option Loop} {i j : Nat}
    {bodies : List Body}, blockLaid tr p b f? l? i j bodies → i ≤ j
  | [], _, _, _, _, _, h => Nat.le_of_eq h.2
  | s :: rest, _, _, _, _, _, h => by
    obtain ⟨n, _, _, -, hs, -, hrest⟩ := h
    have hle := s.laid_le hs
    have hle' := block_le rest hrest
    omega

end

/-- What leaves a function has code for that. -/
theorem Statement.slots_lt_of_returns (hp : tr.Into p) {f : FunctionInfo} {s : Statement}
    (hs : s.returns = true) (h : s.Laid tr p (some f) l? i j bodies) :
    tr.slots i < tr.slots j := by
  cases s with
  | returnValue e =>
    obtain ⟨-, n, _, _, hspan, -, hslots, rfl, hleaves⟩ := h
    have hn := (span_bounds hspan e.marks_ne_nil).2
    have hle := slots_mono hp (span_le hspan) hn
    have hend : tr.slots (n + 1) = tr.slots n + 2 := hleaves.2.2
    omega
  | returnNothing =>
    obtain ⟨-, -, -, hslots⟩ := h
    omega
  | _ => cases hs

theorem slots_lt_of_returnsFrom (hp : tr.Into p) {f : FunctionInfo} : ∀ (b : List Statement)
    {i j : Nat} {bodies : List Body}, returnsFrom b = true →
      blockLaid tr p b (some f) l? i j bodies → j ≤ w.length → tr.slots i < tr.slots j
  | [], _, _, _, hb, _, _ => by cases hb
  | s :: rest, i, j, _, hb, h, hj => by
    obtain ⟨n, _, _, -, hs, hnext, hrest⟩ := h
    have hmarks := s.laid_le hs
    have hmarks' := block_le rest hrest
    have hle := slots_mono hp hmarks (by omega)
    have hle' := slots_mono hp hmarks' hj
    have hany : (s.returns || returnsFrom rest) = true := List.any_cons.symm.trans hb
    rcases (Bool.or_eq_true _ _).mp hany with hb | hb
    · have hlt := Statement.slots_lt_of_returns hp hb hs
      omega
    · have hlt := slots_lt_of_returnsFrom hp rest hb hrest hj
      omega

/-- **The slots between marks that only compute.** -/
theorem within_computing (hp : tr.Into p) (h : Span w i j v) (hv : Computing v)
    (hj : j ≤ w.length) {k : Nat} (hk : tr.slots i ≤ k) (hk' : k < tr.slots j) :
    Within p (tr.state i).symbols.Visible (tr.slots i) (tr.slots j) k := by
  obtain ⟨code, hcode, hstraight⟩ := (tr.quiet h hv).program
  have hlength : tr.slots j = tr.slots i + code.length := by
    have hsize := congrArg Array.size hcode
    simp only [Array.size_append, List.size_toArray, List.length_map] at hsize
    exact hsize
  have hstretch : Target.Stretch p (tr.slots i) code := by
    intro k' c hc
    refine (hp.extends hj).kept _ _ ?_
    have hsub : (tr.state i).memory.program.size + k' - (tr.state i).memory.program.size = k' :=
      Nat.add_sub_cancel_left _ _
    rw [hcode, tr.slots_eq, Array.getElem?_append_right (Nat.le_add_right _ _), hsub]
    simpa using hc
  rw [hlength] at hk' ⊢
  exact hstraight.slot hstretch k hk hk'

/-- **A piece that only computes.** -/
theorem framed_computing (hp : tr.Into p) (h : Span w i j v) (hv : Computing v)
    (hj : j ≤ w.length) :
    Framed tr p functions exits i j (tr.slots i) (tr.slots j) [] := by
  have hij := span_le h
  have hsmall := slots_small hp hj
  exact
    { marks := hij
      slots := (tr.quiet h hv).extends.size
      inside := fun _ hB => absurd hB List.not_mem_nil
      hidden := fun _ hB => absurd hB List.not_mem_nil
      stays := fun k t hk hk' hl => by
        rcases within_computing hp h hv hj hk hk' with
          ⟨hc, hplain⟩ | ⟨hc, ha, hb⟩ | ⟨hc, ha, hb⟩ | ⟨hf, hcalls, ha, rfl⟩
        · exact absurd hl (hc.not_leads hplain.jumpTarget?)
        · obtain rfl := hc.leads_jump (Nat.lt_of_le_of_lt hb hsmall) hl
          exact .inr (.inl ⟨ha, hb⟩)
        · obtain rfl := hc.leads_jumpIfFalse (Nat.lt_of_le_of_lt hb hsmall) hl
          exact .inr (.inl ⟨ha, hb⟩)
        · obtain ⟨row, s, hrow, hs⟩ := hf
          have hi := Nat.le_trans hij hj
          have hstart := hp.start_le hi hrow
          have hlt := Nat.lt_of_le_of_lt hstart (slots_small hp hi)
          exact .inl ⟨i, _, _, Nat.le_refl i, hi, ⟨row, s, hrow, hs⟩, hcalls, rfl, ha,
            Holds.leads_jump hcalls.2 hlt hl⟩
      spares := fun _ hB => absurd hB List.not_mem_nil }

/-- **A test with its jump,** which the body behind it is skipped by. -/
theorem framed_test (hp : tr.Into p) (hknows : Knows tr functions) {test : Relation} {target : Nat}
    (h : Tests tr p i j test target) (htarget : target ∈ exits) (hsmall : target < 2 ^ 63) :
    Framed tr p functions exits i j (tr.slots i) (tr.slots j + 1) [] := by
  obtain ⟨hspan, condition, st, -, hholds⟩ := h
  have hj := (span_bounds hspan test.marks_ne_nil).2
  refine (framed_computing hp hspan test.computing hj).seq hp hknows
    (framed_slot (Nat.le_refl j) hholds fun t ht => ?_) (Nat.le_refl j) fun _ _ _ hB =>
      absurd hB List.not_mem_nil
  rw [Instruction.jumpTarget?_jumpIfFalse hsmall] at ht
  obtain rfl := Option.some.inj ht
  exact htarget

/-- The code that leaves a function with a value. -/
theorem framed_leaves {m n : Nat} {f : FunctionInfo} {value : Operand}
    (h : LeavesWith tr p m j f value) (hp : tr.Into p) (hknows : Knows tr functions)
    (hmn : m ≤ n) : Framed tr p functions exits m n (tr.slots m) (tr.slots j) [] := by
  obtain ⟨hassign, hthrough, hslots⟩ := h
  rw [hslots]
  have hnone : (Instruction.assign value (.direct f.result)).jumpTarget? = none :=
    (Instruction.plain_assign _ _).jumpTarget?
  have hfirst : Framed tr p functions exits m m (tr.slots m) (tr.slots m + 1) [] :=
    framed_slot (Nat.le_refl m) hassign fun t ht => by
      rw [hnone] at ht
      cases ht
  have hsecond : Framed tr p functions exits m n (tr.slots m + 1) (tr.slots m + 1 + 1) [] :=
    framed_slot hmn hthrough fun t ht => by
      rw [Instruction.jumpTarget?_jumpThrough] at ht
      cases ht
  exact hfirst.seq hp hknows hsecond (Nat.le_refl m) fun _ _ _ hB => absurd hB List.not_mem_nil

end Code

section Framing

variable {E : Setting} {w : List Mark} {tr : Trace E w} {p : Program}
  {functions : FunctionInfo → Prop} {i j : Nat} {f? : Option FunctionInfo} {l? : Option Loop}
  {bodies : List Body}

/-- The loop that something stands in is around it. -/
def Around (tr : Trace E w) (l? : Option Loop) (i j : Nat) : Prop :=
  ∀ l, l? = some l → l.start ≤ tr.slots i ∧ tr.slots j ≤ l.behind ∧ l.behind < 2 ^ 63

theorem Around.ends (h : Around tr l? i j) {t : Nat} (ht : t ∈ loopEnds l?) :
    t ≤ tr.slots i ∨ tr.slots j ≤ t := by
  cases l? with
  | none => exact absurd ht List.not_mem_nil
  | some l =>
    obtain ⟨h₁, h₂, -⟩ := h l rfl
    rcases List.mem_cons.1 ht with rfl | ht
    · exact .inl h₁
    · obtain rfl := List.mem_singleton.1 ht
      exact .inr h₂

theorem Around.narrow {i' j' : Nat} (h : Around tr l? i j) (hi : tr.slots i ≤ tr.slots i')
    (hj : tr.slots j' ≤ tr.slots j) : Around tr l? i' j' := fun l hl => by
  obtain ⟨h₁, h₂, h₃⟩ := h l hl
  exact ⟨Nat.le_trans h₁ hi, Nat.le_trans hj h₂, h₃⟩

theorem around_none : Around tr none i j := nofun

theorem framed_leave (exit : Exit) (h : (Statement.leave exit).Laid tr p f? l? i j bodies)
    (hl : Around tr l? i j) :
    Framed tr p functions (loopEnds l?) i j (tr.slots i) (tr.slots j) bodies := by
  cases l? with
  | none =>
    obtain ⟨rfl, hspan, hslots, -⟩ := h
    rw [hslots]
    exact framed_nil (span_le hspan)
  | some l =>
    obtain ⟨rfl, hspan, hslots, hholds⟩ := h
    obtain ⟨h₁, h₂, h₃⟩ := hl l rfl
    rw [hslots]
    have htarget : l.target exit ∈ loopEnds (some l) := by cases exit <;> simp [Loop.target, loopEnds]
    have hsmall : l.target exit < 2 ^ 63 := by
      cases exit
      · exact h₃
      · change l.start < 2 ^ 63
        omega
    refine framed_slot (span_le hspan) hholds fun t ht => ?_
    rw [Instruction.jumpTarget?_jump hsmall] at ht
    obtain rfl := Option.some.inj ht
    exact htarget

theorem framed_returnValue (hp : tr.Into p) (hknows : Knows tr functions) (e : Expr)
    (h : (Statement.returnValue e).Laid tr p f? l? i j bodies) :
    Framed tr p functions (loopEnds l?) i j (tr.slots i) (tr.slots j) bodies := by
  obtain ⟨rfl, n, value, st, hspan, -, hslots, rfl, hleaves⟩ := h
  have hn := (span_bounds hspan e.marks_ne_nil).2
  have hcode : Framed tr p functions (loopEnds l?) (i + 1) n (tr.slots (i + 1)) (tr.slots n) [] :=
    framed_computing hp hspan e.computing hn
  rw [hslots] at hcode
  cases f? with
  | none =>
    rw [show tr.slots (n + 1) = tr.slots n from hleaves]
    exact hcode.widen (Nat.le_succ i) (Nat.le_succ n)
  | some f =>
    exact (hcode.seq hp hknows (framed_leaves hleaves hp hknows (Nat.le_succ n)) (Nat.le_refl n)
      fun _ _ _ hB => absurd hB List.not_mem_nil).widen (Nat.le_succ i) (Nat.le_refl _)

theorem framed_returnNothing (h : Statement.returnNothing.Laid tr p f? l? i j bodies) :
    Framed tr p functions (loopEnds l?) i j (tr.slots i) (tr.slots j) bodies := by
  obtain ⟨rfl, hspan, hleaves⟩ := h
  have hij := span_le hspan
  cases f? with
  | none =>
    rw [show tr.slots j = tr.slots i from hleaves]
    exact framed_nil hij
  | some f =>
    obtain ⟨hholds, hslots⟩ := hleaves
    rw [hslots]
    refine framed_slot hij hholds fun t ht => ?_
    rw [Instruction.jumpTarget?_jumpThrough] at ht
    cases ht

/-- What only computes is a piece without bodies. -/
theorem framed_simple (hp : tr.Into p) {s : Statement} (hs : s.isSimple = true)
    (h : s.Laid tr p f? l? i j bodies) (hj : j ≤ w.length) :
    Framed tr p functions (loopEnds l?) i j (tr.slots i) (tr.slots j) bodies := by
  obtain ⟨rfl, hspan⟩ := Statement.laid_simple hs h
  exact framed_computing hp hspan (Statement.computing hs) hj

/-- What is shown of a block, wherever its marks stand. -/
def BlockFramed (tr : Trace E w) (p : Program) (functions : FunctionInfo → Prop) (b : Block) :
    Prop :=
  ∀ {f? : Option FunctionInfo} {l? : Option Loop} {i j : Nat} {bodies : List Body},
    blockLaid tr p b f? l? i j bodies → j ≤ w.length → Around tr l? i j →
      Framed tr p functions (loopEnds l?) i j (tr.slots i) (tr.slots j) bodies

theorem framed_ifThen (hp : tr.Into p) (hknows : Knows tr functions) (test : Relation)
    (body : Block) (ih : BlockFramed tr p functions body)
    (h : (Statement.ifThen test body).Laid tr p f? l? i j bodies) (hj : j ≤ w.length)
    (hl : Around tr l? i j) :
    Framed tr p functions (loopEnds l?) i j (tr.slots i) (tr.slots j) bodies := by
  obtain ⟨c, n, htest, hfirst, hnext, hbody, hslots, rfl⟩ := h
  have hsmall := slots_small hp hj
  rw [hslots] at hsmall htest ⊢
  have hhead : Framed tr p functions (tr.slots n :: loopEnds l?) (i + 1) c (tr.slots (i + 1))
      (tr.slots c + 1) [] := framed_test hp hknows htest List.mem_cons_self hsmall
  have hle := hhead.slots
  have hinner := ih hbody (Nat.le_of_succ_le hj) (hl.narrow (by omega) (Nat.le_of_eq hslots.symm))
  rw [hfirst] at hhead
  rw [hnext] at hinner
  have hends : ∀ t ∈ tr.slots n :: loopEnds l?, t ≤ tr.slots c + 1 ∨ tr.slots n ≤ t := by
    intro t ht
    rcases List.mem_cons.1 ht with rfl | ht
    · exact .inr (Nat.le_refl _)
    · have hsides := hl.ends ht
      rw [hslots] at hsides
      omega
  have hwhole := hhead.seq hp hknows (hinner.mono fun t ht => List.mem_cons_of_mem _ ht)
    (Nat.le_add_right c 2) fun t ht => (List.nil_append bodies).symm ▸ hinner.avoids (hends t ht)
  exact (hwhole.close hwhole.slots (Nat.le_refl _)).widen (Nat.le_succ i) (Nat.le_succ n)

theorem framed_ifElse (hp : tr.Into p) (hknows : Knows tr functions) (test : Relation)
    (body other : Block) (ih : BlockFramed tr p functions body)
    (ih' : BlockFramed tr p functions other)
    (h : (Statement.ifElse test body other).Laid tr p f? l? i j bodies) (hj : j ≤ w.length)
    (hl : Around tr l? i j) :
    Framed tr p functions (loopEnds l?) i j (tr.slots i) (tr.slots j) bodies := by
  obtain ⟨c, n, m, bodies₁, bodies₂, rfl, htest, hfirst, hnext, hbody, hjump, hnext', hother, hslots,
    rfl⟩ := h
  have hmarks := block_le body hbody
  have hmarks' := block_le other hother
  have hle₁ := slots_mono hp hmarks (by omega)
  have hle₂ := slots_mono hp hmarks' (by omega)
  have hsmall := slots_small hp hj
  rw [hslots] at hsmall hjump ⊢
  have hhead : Framed tr p functions ((tr.slots n + 1) :: tr.slots m :: loopEnds l?) (i + 1) c
      (tr.slots (i + 1)) (tr.slots c + 1) [] :=
    framed_test hp hknows htest List.mem_cons_self (by omega)
  have hle := hhead.slots
  have hinner := (ih hbody (by omega) (hl.narrow (by omega) (by omega))).mono fun t ht =>
    List.mem_cons_of_mem (tr.slots n + 1) (List.mem_cons_of_mem (tr.slots m) ht)
  have hinner' := (ih' hother (by omega) (hl.narrow (by omega) (by omega))).mono fun t ht =>
    List.mem_cons_of_mem (tr.slots n + 1) (List.mem_cons_of_mem (tr.slots m) ht)
  have hskip : Framed tr p functions ((tr.slots n + 1) :: tr.slots m :: loopEnds l?) n n
      (tr.slots n) (tr.slots n + 1) [] := framed_slot (Nat.le_refl n) hjump fun t ht => by
    rw [Instruction.jumpTarget?_jump hsmall] at ht
    obtain rfl := Option.some.inj ht
    exact List.mem_cons_of_mem _ List.mem_cons_self
  rw [hfirst] at hhead
  rw [hnext] at hinner
  rw [hnext'] at hinner'
  -- no exit lies within one of the branches
  have hends : ∀ t ∈ (tr.slots n + 1) :: tr.slots m :: loopEnds l?,
      (t ≤ tr.slots c + 1 ∨ tr.slots n ≤ t) ∧ (t ≤ tr.slots n + 1 ∨ tr.slots m ≤ t) := by
    intro t ht
    rcases List.mem_cons.1 ht with rfl | ht
    · omega
    · rcases List.mem_cons.1 ht with rfl | ht
      · omega
      · have hsides := hl.ends ht
        rw [hslots] at hsides
        omega
  have havoid : ∀ t ∈ (tr.slots n + 1) :: tr.slots m :: loopEnds l?,
      (∀ B ∈ bodies₁, t < B.start ∨ B.behind ≤ t) ∧ ∀ B ∈ bodies₂, t < B.start ∨ B.behind ≤ t :=
    fun t ht => ⟨hinner.avoids (hends t ht).1, hinner'.avoids (hends t ht).2⟩
  have hbranch := hhead.seq hp hknows hinner (Nat.le_add_right c 2) fun t ht => by
    rw [List.nil_append]
    exact (havoid t ht).1
  have hbranches := hbranch.seq hp hknows (hskip.seq hp hknows hinner' (Nat.le_add_right n 3)
    fun t ht => by
      rw [List.nil_append]
      exact (havoid t ht).2) (Nat.le_refl n) fun t ht B hB => by
    rw [List.nil_append, List.nil_append] at hB
    exact (List.mem_append.1 hB).elim ((havoid t ht).1 B) ((havoid t ht).2 B)
  have hwhole := (hbranches.close (by omega) (by omega)).close (by omega) (Nat.le_refl _)
  exact hwhole.widen (Nat.le_succ i) (Nat.le_succ m)

theorem framed_loop (hp : tr.Into p) (hknows : Knows tr functions) (test : Relation)
    (body : Block) (ih : BlockFramed tr p functions body)
    (h : (Statement.loop test body).Laid tr p f? l? i j bodies) (hj : j ≤ w.length)
    (hl : Around tr l? i j) :
    Framed tr p functions (loopEnds l?) i j (tr.slots i) (tr.slots j) bodies := by
  obtain ⟨c, n, htest, hfirst, hnext, hbody, hback, hslots, rfl⟩ := h
  have hmarks := block_le body hbody
  have hle₁ := slots_mono hp hmarks (by omega)
  have hsmall := slots_small hp hj
  have hhead : Framed tr p functions (tr.slots (n + 1) :: tr.slots i :: loopEnds l?) (i + 3) c
      (tr.slots (i + 3)) (tr.slots c + 1) [] :=
    framed_test hp hknows htest List.mem_cons_self hsmall
  have hle := hhead.slots
  -- within the body, the ends of the loop are exits
  have hinner : Framed tr p functions (tr.slots (n + 1) :: tr.slots i :: loopEnds l?) (c + 2) n
      (tr.slots (c + 2)) (tr.slots n) bodies := by
    refine (ih hbody (by omega) ?_).mono fun t ht => ?_
    · rintro l ⟨⟩
      exact ⟨by dsimp only; omega, by dsimp only; omega, hsmall⟩
    · rcases List.mem_cons.1 ht with rfl | ht
      · exact List.mem_cons_of_mem _ List.mem_cons_self
      · obtain rfl := List.mem_singleton.1 ht
        exact List.mem_cons_self
  have hturn : Framed tr p functions (tr.slots (n + 1) :: tr.slots i :: loopEnds l?) n n
      (tr.slots n) (tr.slots n + 1) [] := framed_slot (Nat.le_refl n) hback fun t ht => by
    rw [Instruction.jumpTarget?_jump (by omega)] at ht
    obtain rfl := Option.some.inj ht
    exact List.mem_cons_of_mem _ List.mem_cons_self
  rw [hfirst] at hhead
  rw [hnext] at hinner
  have havoid : ∀ t ∈ tr.slots (n + 1) :: tr.slots i :: loopEnds l?,
      ∀ B ∈ bodies, t < B.start ∨ B.behind ≤ t := by
    intro t ht
    refine hinner.avoids ?_
    rcases List.mem_cons.1 ht with rfl | ht
    · omega
    · rcases List.mem_cons.1 ht with rfl | ht
      · omega
      · have hsides := hl.ends ht
        omega
  have hturns := hinner.seq hp hknows hturn (Nat.le_refl n) fun t ht => by
    rw [List.append_nil]
    exact havoid t ht
  have hwhole := hhead.seq hp hknows hturns (Nat.le_add_right c 2) fun t ht => by
    rw [List.append_nil, List.nil_append]
    exact havoid t ht
  rw [List.append_nil, List.nil_append, ← hslots] at hwhole
  exact ((hwhole.close (by omega) (Nat.le_refl _)).close (Nat.le_refl _) (by omega)).widen
    (by omega) (Nat.le_succ n)

/-- **A definition** is entered at the start of its body only. -/
theorem framed_define (hp : tr.Into p) (hknows : Knows tr functions) (x : String)
    (params : List String) (body : Block) (ih : BlockFramed tr p functions body)
    (h : (Statement.define x params body).Laid tr p f? l? i j bodies) (hj : j ≤ w.length) :
    Framed tr p functions (loopEnds l?) i j (tr.slots i) (tr.slots j) bodies := by
  obtain ⟨f, n, m, inner, rfl, hin, rfl, haround, hstart, hfirst, hbody, hend, hhides⟩ := h
  have hmarks := block_le body hbody
  have hsmall := slots_small hp hj
  have hinner : Framed tr p functions [] n m (tr.slots n) (tr.slots m) inner :=
    ih hbody (by omega) around_none
  have hinto := hinner.slots
  -- the body with what may be put behind it
  obtain ⟨hwhole, hle⟩ : Framed tr p functions [] n m (tr.slots n) (tr.slots (m + 2)) inner ∧
      tr.slots n < tr.slots (m + 2) := by
    split at hend
    · rename_i hreturns
      rw [hend]
      exact ⟨hinner, slots_lt_of_returnsFrom hp body hreturns hbody (by omega)⟩
    · have hseq := hinner.seq hp hknows (framed_leaves hend hp hknows (Nat.le_refl m))
        (Nat.le_refl m) nofun
      rw [List.append_nil] at hseq
      exact ⟨hseq, by rw [hend.2.2]; omega⟩
  have hskip : ∀ t, Leads p (tr.slots i) t → t = tr.slots (m + 2) := fun t ht =>
    haround.leads_jump hsmall ht
  exact
    { marks := by omega
      slots := by omega
      inside := fun B hB => by
        rcases List.mem_cons.1 hB with rfl | hB
        · have hself : Body.start ⟨f, tr.slots (m + 2)⟩ = tr.slots i + 1 := hstart
          refine ⟨by omega, ?_, Nat.le_refl _, ?_⟩
          · dsimp only
            omega
          · rw [hself]
            exact haround
        · obtain ⟨h₁, h₂⟩ := hwhole.inside B hB
          exact ⟨by omega, h₂⟩
      hidden := fun B hB k hk hk' f' hv => by
        rcases List.mem_cons.1 hB with rfl | hB
        · rcases (hp.later hk hk').visible (hp.ordered hj) hv with ⟨f₀, hv₀, hbare⟩ | hle
          · have hsame : f'.bare.start = f₀.bare.start := congrArg FunctionInfo.start hbare
            rw [FunctionInfo.start_bare, FunctionInfo.start_bare] at hsame
            exact .inl (hsame ▸ hhides f₀ hv₀)
          · exact .inr hle
        · exact hwhole.hidden B hB k (by omega) hk' f' hv
      stays := fun k t hk hk' hl => by
        by_cases hki : k = tr.slots i
        · obtain rfl := hskip t (hki ▸ hl)
          exact .inr (.inl ⟨by omega, Nat.le_refl _⟩)
        · rcases hwhole.stays k t (by omega) hk' hl with ⟨n', f', slot, hn, hrest⟩ | ⟨h₁, h₂⟩ | hc
          · exact .inl ⟨n', f', slot, by omega, hrest⟩
          · exact .inr (.inl ⟨by omega, h₂⟩)
          · exact absurd hc List.not_mem_nil
      spares := fun B hB k t hk hk' hout hl ht ht' => by
        by_cases hki : k = tr.slots i
        · obtain rfl := hskip t (hki ▸ hl)
          rcases List.mem_cons.1 hB with rfl | hB
          · exact absurd ht' (Nat.lt_irrefl _)
          · exact absurd ht' (Nat.not_lt.2 (hwhole.inside B hB).2.2.1)
        · rcases List.mem_cons.1 hB with rfl | hB
          · -- all else that stands between is in the body
            have hself : Body.start ⟨f, tr.slots (m + 2)⟩ = tr.slots i + 1 := hstart
            rw [hself] at hout
            dsimp only at hout
            omega
          · exact hwhole.spares B hB k t (by omega) hk' hout hl ht ht' }

mutual

/-- **Every statement is a piece of code** that jumps within itself, or to the ends of the loop around
it. -/
theorem Statement.framed (hp : tr.Into p) (hknows : Knows tr functions) : ∀ (s : Statement)
    {f? : Option FunctionInfo} {l? : Option Loop} {i j : Nat} {bodies : List Body},
    s.Laid tr p f? l? i j bodies → j ≤ w.length → Around tr l? i j →
      Framed tr p functions (loopEnds l?) i j (tr.slots i) (tr.slots j) bodies
  | .assign .., _, _, _, _, _, h, hj, _ => framed_simple hp rfl h hj
  | .assignElement .., _, _, _, _, _, h, hj, _ => framed_simple hp rfl h hj
  | .call .., _, _, _, _, _, h, hj, _ => framed_simple hp rfl h hj
  | .global _, _, _, _, _, _, h, hj, _ => framed_simple hp rfl h hj
  | .print _, _, _, _, _, _, h, hj, _ => framed_simple hp rfl h hj
  | .returnValue e, _, _, _, _, _, h, _, _ => framed_returnValue hp hknows e h
  | .returnNothing, _, _, _, _, _, h, _, _ => framed_returnNothing h
  | .leave exit, _, _, _, _, _, h, _, hl => framed_leave exit h hl
  | .define x params body, _, _, _, _, _, h, hj, _ =>
    framed_define hp hknows x params body (block_framed hp hknows body) h hj
  | .ifThen test body, _, _, _, _, _, h, hj, hl =>
    framed_ifThen hp hknows test body (block_framed hp hknows body) h hj hl
  | .ifElse test body other, _, _, _, _, _, h, hj, hl =>
    framed_ifElse hp hknows test body other (block_framed hp hknows body)
      (block_framed hp hknows other) h hj hl
  | .loop test body, _, _, _, _, _, h, hj, hl =>
    framed_loop hp hknows test body (block_framed hp hknows body) h hj hl

/-- **Every block is one,** statement by statement. -/
theorem block_framed (hp : tr.Into p) (hknows : Knows tr functions) : ∀ (b : List Statement),
    BlockFramed tr p functions b
  | [], _, _, i, j, bodies, h, _, _ => by
    obtain ⟨rfl, rfl⟩ := h
    exact framed_nil (Nat.le_refl i)
  | s :: rest, f?, l?, i, j, bodies, h, hj, hl => by
    obtain ⟨n, bodies₁, bodies₂, rfl, hs, hnext, hrest⟩ := h
    have hmarks := Statement.laid_le s hs
    have hmarks' := block_le rest hrest
    have hle := slots_mono hp hmarks (by omega)
    have hle' := slots_mono hp hmarks' hj
    have hfirst := Statement.framed hp hknows s hs (by omega)
      (hl.narrow (Nat.le_refl _) (by omega))
    have hsecond := block_framed hp hknows rest hrest hj
      (hl.narrow (by omega) (Nat.le_refl _))
    rw [hnext] at hsecond
    refine hfirst.seq hp hknows hsecond (Nat.le_succ n) fun t ht B hB => ?_
    have hsides := hl.ends ht
    rcases List.mem_append.1 hB with hB | hB
    · exact hfirst.avoids (by omega) B hB
    · exact hsecond.avoids (by omega) B hB

end

end Framing

end OnePass.Syntax
