import OnePass.Proofs.Emission.Closing
import OnePass.Proofs.Emission.Places
import OnePass.Proofs.Syntax.Layout

/-!
# Where a program may go on

The static control flow of a program. The jump of a call comes back to the slot that the
instruction before it has stored, which is the one behind the jump. A jump through a cell
ends a path. All else goes on behind itself or at the slot that it names.

* `Leads`: a slot that an instruction names. `CallJump`: the jump of a call.
* `Flows`: one step of a path.
* `Confined`: slots that paths leave only at certain places. `Confined.union`.
* `Straight.slot`: what stands in the slots of code that runs on to its end.
-/

namespace OnePass.Emission

open Names Target

/-- Calls do not depend on whether the function returns a value. -/
theorem Calls.of_bare {p : Program} {f f' : FunctionInfo} {slot : Nat} (h : Calls p slot f)
    (hbare : f'.bare = f.bare) : Calls p slot f' := by
  have hstart : f'.bare.start = f.bare.start := congrArg FunctionInfo.start hbare
  have hreturn : f'.bare.returnCell = f.bare.returnCell := congrArg FunctionInfo.returnCell hbare
  rw [FunctionInfo.start_bare, FunctionInfo.start_bare] at hstart
  rw [FunctionInfo.returnCell_bare, FunctionInfo.returnCell_bare] at hreturn
  rw [Calls, hstart, hreturn]
  exact h

end OnePass.Emission

namespace OnePass.Target

open Emission Names

namespace Instruction

/-- The slot that a jump names. -/
def jumpTarget? (i : Instruction) : Option Nat :=
  match i.opcode with
  | .jump => if i.first.mode = .direct then i.first.index? else none
  | .jumpFalse => i.second.bind Operand.index?
  | _ => none

/-- If the instruction jumps through a cell, it is this one. -/
def Through (cell : Nat) (i : Instruction) : Prop :=
  i.opcode = .jump → i.first.mode = .indirect → i = jumpThrough cell

variable {i : Instruction} {c : Operand} {s : Nat}

theorem index?_direct (hs : s < 2 ^ 63) : (Operand.direct s).index? = some s := by
  have h := Operand.value_direct hs
  unfold Operand.index?
  rw [h, if_pos (Int.natCast_nonneg s), Int.toNat_natCast]

theorem jumpTarget?_jump_eq (s : Nat) : (jump s).jumpTarget? = (Operand.direct s).index? := by
  have hfirst : (jump s).first = .direct s := rfl
  unfold jumpTarget?
  rw [show (jump s).opcode = .jump from rfl]
  dsimp only
  rw [hfirst, if_pos (show (Operand.direct s).mode = .direct from rfl)]

theorem jumpTarget?_jumpIfFalse_eq (c : Operand) (s : Nat) :
    (jumpIfFalse c s).jumpTarget? = (Operand.direct s).index? := by
  have hsecond : (jumpIfFalse c s).second = some (.direct s) := rfl
  unfold jumpTarget?
  rw [show (jumpIfFalse c s).opcode = .jumpFalse from rfl]
  dsimp only
  rw [hsecond, Option.bind_some]

theorem jumpTarget?_jump (hs : s < 2 ^ 63) : (jump s).jumpTarget? = some s :=
  (jumpTarget?_jump_eq s).trans (index?_direct hs)

theorem jumpTarget?_jumpIfFalse (hs : s < 2 ^ 63) : (jumpIfFalse c s).jumpTarget? = some s :=
  (jumpTarget?_jumpIfFalse_eq c s).trans (index?_direct hs)

theorem jumpTarget?_jumpThrough : (jumpThrough s).jumpTarget? = none := by
  simp [jumpTarget?, jumpThrough, Operand.indirect]

theorem Plain.jumpTarget? (h : i.Plain) : i.jumpTarget? = none := by
  unfold Instruction.jumpTarget?
  split
  · exact absurd ‹_› h.1
  · exact absurd ‹_› h.2
  · rfl

theorem Plain.through (h : i.Plain) : i.Through s := fun hc => absurd hc h.1

theorem through_jump {t : Nat} : (jump t).Through s := fun _ hmode => by cases hmode

theorem through_jumpIfFalse {t : Nat} : (jumpIfFalse c t).Through s := fun hc => by cases hc

theorem through_jumpThrough : (jumpThrough s).Through s := fun _ _ => rfl

end Instruction

variable {p : Program} {k t t' s : Nat} {i i' : Instruction}

theorem Holds.unique (h : Holds p k i) (h' : Holds p k i') : i = i' :=
  Option.some.inj (Option.some.inj (h.symm.trans h'))

/-- **The instruction in a slot names another one** as the target of a jump. -/
def Leads (p : Program) (k t : Nat) : Prop := ∃ i, Holds p k i ∧ i.jumpTarget? = some t

theorem Holds.leads (h : Holds p k i) (hl : Leads p k t) : i.jumpTarget? = some t := by
  obtain ⟨i', hi', ht⟩ := hl
  rwa [h.unique hi']

theorem Holds.leads_jump (h : Holds p k (.jump t)) (ht : t < 2 ^ 63) (hl : Leads p k t') :
    t' = t := by
  have h' := h.leads hl
  rw [Instruction.jumpTarget?_jump ht] at h'
  exact (Option.some.inj h').symm

theorem Holds.leads_jumpIfFalse {c : Operand} (h : Holds p k (.jumpIfFalse c t)) (ht : t < 2 ^ 63)
    (hl : Leads p k t') : t' = t := by
  have h' := h.leads hl
  rw [Instruction.jumpTarget?_jumpIfFalse ht] at h'
  exact (Option.some.inj h').symm

/-- Where nothing is named, nothing leads anywhere. -/
theorem Holds.not_leads (h : Holds p k i) (hi : i.jumpTarget? = none) : ¬ Leads p k t := fun hl => by
  have h' := h.leads hl
  rw [hi] at h'
  cases h'

/-- **The jump of a call** of one of the functions: the instruction before it stores the slot behind
it in the return cell of the function, and it goes to where that begins. -/
def CallJump (functions : FunctionInfo → Prop) (p : Program) (k : Nat) : Prop :=
  ∃ f slot, functions f ∧ Calls p slot f ∧ k = slot + 1

/-- **One step of a path.** A call comes back to the slot that it has stored. -/
inductive Flows (functions : FunctionInfo → Prop) (p : Program) (k : Nat) : Nat → Prop
  | next {i : Instruction} (h : Holds p k i) (hi : i.opcode ≠ .jump) : Flows functions p k (k + 1)
  | jump {t : Nat} (h : Leads p k t) (hc : ¬ CallJump functions p k) : Flows functions p k t
  | back (h : CallJump functions p k) : Flows functions p k (k + 1)

section Flows

variable {functions : FunctionInfo → Prop} {k' : Nat}

theorem CallJump.holds (h : CallJump functions p k) :
    ∃ f, functions f ∧ Holds p k (.jump f.start) := by
  obtain ⟨f, slot, hf, hcalls, rfl⟩ := h
  exact ⟨f, hf, hcalls.2⟩

/-- A path goes on behind an instruction, or at the slot that it names. -/
theorem Flows.cases (h : Flows functions p k k') :
    k' = k + 1 ∨ (Leads p k k' ∧ ¬ CallJump functions p k) := by
  cases h with
  | next => exact .inl rfl
  | jump h hc => exact .inr ⟨h, hc⟩
  | back => exact .inl rfl

theorem Flows.plain (h : Flows functions p k k') (hi : Holds p k i) (hp : i.Plain) : k' = k + 1 := by
  rcases h.cases with h | ⟨h, -⟩
  · exact h
  · exact absurd h (hi.not_leads hp.jumpTarget?)

/-- A jump that is none of a call goes where it leads. -/
theorem Flows.of_jump (h : Flows functions p k k') (hi : Holds p k (.jump t)) (ht : t < 2 ^ 63)
    (hc : ¬ CallJump functions p k) : k' = t := by
  cases h with
  | next h hop => exact absurd (congrArg Instruction.opcode (hi.unique h)).symm hop
  | jump h _ => exact hi.leads_jump ht h
  | back h => exact absurd h hc

theorem Flows.of_jumpIfFalse {c : Operand} (h : Flows functions p k k')
    (hi : Holds p k (.jumpIfFalse c t)) (ht : t < 2 ^ 63) : k' = k + 1 ∨ k' = t :=
  h.cases.imp_right fun h => hi.leads_jumpIfFalse ht h.1

/-- Nothing comes behind a jump through a cell. -/
theorem not_flows_jumpThrough (hi : Holds p k (.jumpThrough s)) : ¬ Flows functions p k k' := by
  intro h
  cases h with
  | next h hop => exact absurd (congrArg Instruction.opcode (hi.unique h)).symm hop
  | jump h _ => exact hi.not_leads Instruction.jumpTarget?_jumpThrough h
  | back h =>
    obtain ⟨f, -, hf⟩ := h.holds
    have hsame := congrArg (fun i : Instruction => i.first.mode) (hi.unique hf)
    cases hsame

end Flows

/-- **Slots between two places that paths leave only at certain others.** Each holds an instruction,
and a jump through a cell takes the cell of their function. -/
structure Confined (functions : FunctionInfo → Prop) (p : Program) (f : FunctionInfo) (a b : Nat)
    (out inside : Nat → Prop) : Prop where
  bounds : ∀ k, inside k → a ≤ k ∧ k < b
  holds : ∀ k, inside k → ∃ i, Holds p k i ∧ i.Through f.returnCell
  flows : ∀ k k', inside k → Flows functions p k k' → inside k' ∨ out k'

section Confined

variable {functions : FunctionInfo → Prop} {f : FunctionInfo} {a b a' b' : Nat}
  {out out' inside inside' : Nat → Prop}

theorem Confined.mono (h : Confined functions p f a b out inside) (ha : a' ≤ a) (hb : b ≤ b')
    (hout : ∀ k, out k → out' k) : Confined functions p f a' b' out' inside where
  bounds k hk := ⟨Nat.le_trans ha (h.bounds k hk).1, Nat.lt_of_lt_of_le (h.bounds k hk).2 hb⟩
  holds := h.holds
  flows k k' hk hflow := (h.flows k k' hk hflow).imp_right (hout k')

/-- **Two regions make one,** where each is left into the other. -/
theorem Confined.union {out₁ out₂ : Nat → Prop} (h : Confined functions p f a b out₁ inside)
    (h' : Confined functions p f a b out₂ inside') (h₁ : ∀ k, out₁ k → inside' k ∨ out k)
    (h₂ : ∀ k, out₂ k → inside k ∨ out k) :
    Confined functions p f a b out fun k => inside k ∨ inside' k where
  bounds k hk := hk.elim (h.bounds k) (h'.bounds k)
  holds k hk := hk.elim (h.holds k) (h'.holds k)
  flows k k' hk hflow := by
    rcases hk with hk | hk
    · rcases h.flows k k' hk hflow with h | h
      · exact .inl (.inl h)
      · exact (h₁ k' h).imp_left .inr
    · rcases h'.flows k k' hk hflow with h | h
      · exact .inl (.inr h)
      · exact (h₂ k' h).imp_left .inl

/-- One slot, with what comes behind it. -/
theorem confined_slot (h : Holds p k i) (hi : i.Through f.returnCell)
    (hflows : ∀ k', Flows functions p k k' → out k') :
    Confined functions p f k (k + 1) out (· = k) where
  bounds k' hk' := by omega
  holds k' hk' := by
    subst hk'
    exact ⟨i, h, hi⟩
  flows k' k'' hk' hflow := by
    subst hk'
    exact .inr (hflows k'' hflow)

/-- **Code that paths pass through:** they begin in the first slot, if there is one, and leave only at
certain places. -/
def Through (functions : FunctionInfo → Prop) (p : Program) (f : FunctionInfo) (a b : Nat)
    (out : Nat → Prop) : Prop :=
  ∃ inside, Confined functions p f a b out inside ∧ (inside a ∨ (a = b ∧ out b))

theorem through_nil (h : out a) : Through functions p f a a out :=
  ⟨fun _ => False, ⟨fun _ => False.elim, fun _ => False.elim, fun _ _ => False.elim⟩, .inr ⟨rfl, h⟩⟩

theorem through_slot (h : Holds p k i) (hi : i.Through f.returnCell)
    (hflows : ∀ k', Flows functions p k k' → out k') :
    Through functions p f k (k + 1) out := ⟨_, confined_slot h hi hflows, .inl rfl⟩

theorem Through.mono (h : Through functions p f a b out) (hout : ∀ k, out k → out' k) :
    Through functions p f a b out' := by
  obtain ⟨inside, hinside, hentry⟩ := h
  exact ⟨inside, hinside.mono (Nat.le_refl a) (Nat.le_refl b) hout,
    hentry.imp_right fun ⟨hab, hb⟩ => ⟨hab, hout b hb⟩⟩

/-- Code that no path comes to may stand behind. -/
theorem Through.skip (h : Through functions p f a b out) (hab : a < b) (hb : b ≤ b') :
    Through functions p f a b' out := by
  obtain ⟨inside, hinside, hentry⟩ := h
  refine ⟨inside, hinside.mono (Nat.le_refl a) hb fun _ h => h, .inl ?_⟩
  exact hentry.resolve_right fun ⟨heq, _⟩ => Nat.ne_of_lt hab heq

/-- **One piece behind another:** the first is left into the second, or out of both. -/
theorem Through.seq {c : Nat} {out₁ : Nat → Prop} (h : Through functions p f a b out₁)
    (h' : Through functions p f b c out) (hab : a ≤ b) (hbc : b ≤ c)
    (hout : ∀ k, out₁ k → k = b ∨ out k) : Through functions p f a c out := by
  obtain ⟨inside₁, h₁, hentry₁⟩ := h
  obtain ⟨inside₂, h₂, hentry₂⟩ := h'
  have hbehind : inside₂ b ∨ out b := hentry₂.imp_right fun ⟨hbc, hc⟩ => hbc.symm ▸ hc
  refine ⟨_, (h₁.mono (Nat.le_refl a) hbc fun k h => h).union
    (h₂.mono hab (Nat.le_refl c) fun k h => h) (fun k hk => ?_) (fun k hk => .inr hk), ?_⟩
  · rcases hout k hk with rfl | hk
    · exact hbehind
    · exact .inr hk
  · rcases hentry₁ with h | ⟨rfl, -⟩
    · exact .inl (.inl h)
    · exact hentry₂.imp_left .inr

/-- **Code that goes back to its start** is left as if it did not. -/
theorem Through.again (h : Through functions p f a b fun k => k = a ∨ out k) (hab : a < b) :
    Through functions p f a b out := by
  obtain ⟨inside, hinside, hentry⟩ := h
  have ha : inside a := hentry.resolve_right fun ⟨heq, _⟩ => Nat.ne_of_lt hab heq
  refine ⟨inside, ⟨hinside.bounds, hinside.holds, fun k k' hk hflow => ?_⟩, .inl ha⟩
  rcases hinside.flows k k' hk hflow with h | rfl | h
  · exact .inl h
  · exact .inl ha
  · exact .inr h

/-- **A path that begins in a closed region** never leaves it. -/
theorem Confined.reaches (h : Confined functions p f a b (fun _ => False) inside) {k k' : Nat}
    (hk : inside k) (hpath : Relation.ReflTransGen (Flows functions p) k k') : inside k' := by
  induction hpath with
  | refl => exact hk
  | tail _ hflow ih => exact (h.flows _ _ ih hflow).resolve_right id

end Confined

/-- What stands in a slot of code that runs on to its end: an instruction that the next one follows,
a jump within the code, or a call. -/
inductive Within (p : Program) (visible : FunctionInfo → Prop) (a b k : Nat) : Prop
  | plain {i : Instruction} (h : Holds p k i) (hi : i.Plain)
  | jump {t : Nat} (h : Holds p k (.jump t)) (ha : a ≤ t) (hb : t ≤ b)
  | test {c : Operand} {t : Nat} (h : Holds p k (.jumpIfFalse c t)) (ha : a ≤ t) (hb : t ≤ b)
  | call {f : FunctionInfo} {slot : Nat} (hf : visible f) (h : Calls p slot f) (ha : a ≤ slot)
      (hk : k = slot + 1)

theorem Within.mono {visible : FunctionInfo → Prop} {a a' b : Nat} (h : Within p visible a b k)
    (ha' : a' ≤ a) : Within p visible a' b k := by
  cases h with
  | plain h hi => exact .plain h hi
  | jump h ha hb => exact .jump h (Nat.le_trans ha' ha) hb
  | test h ha hb => exact .test h (Nat.le_trans ha' ha) hb
  | call hf h ha hk => exact .call hf h (Nat.le_trans ha' ha) hk

/-- Code that stands in a program from a slot on. -/
def Stretch (p : Program) (s : Nat) (code : List Instruction) : Prop :=
  ∀ k i, code[k]? = some i → Holds p (s + k) i

theorem Stretch.tail {code : List Instruction} (h : Stretch p s (i :: code)) :
    Stretch p (s + 1) code := fun k i' hi' => by
  have h' := h (k + 1) i' (by simpa using hi')
  rwa [Nat.add_assoc, Nat.add_comm 1]

theorem Stretch.drop {a b : List Instruction} (h : Stretch p s (a ++ b)) :
    Stretch p (s + a.length) b := fun k i' hi' => by
  have h' := h (a.length + k) i' (by simpa [List.getElem?_append_right] using hi')
  rwa [Nat.add_assoc]

end OnePass.Target

namespace OnePass.Emission

open Names Target

/-- **The slots of code that runs on to its end.** -/
theorem Straight.slot {p : Program} {s : Nat} {visible : FunctionInfo → Prop}
    {code : List Instruction}
    (h : Straight visible s code) (hcode : Stretch p s code) :
    ∀ k, s ≤ k → k < s + code.length → Within p visible s (s + code.length) k := by
  induction h with
  | nil => exact fun k h₁ h₂ => by simp at h₂; omega
  | @plain s i code hi _ ih =>
    intro k h₁ h₂
    rw [List.length_cons] at h₂ ⊢
    by_cases hk : k = s
    · subst hk
      exact .plain (hcode 0 i rfl) hi
    · have h := ih hcode.tail k (by omega) (by omega)
      rw [Nat.add_right_comm, ← Nat.add_assoc] at *
      exact h.mono (Nat.le_succ s)
  | @power s base exponent result counter running code _ ih =>
    intro k h₁ h₂
    have hlength : (powerCode base exponent result counter running s ++ code).length =
        7 + code.length := by
      rw [List.length_append]
      rfl
    rw [hlength] at h₂ ⊢
    by_cases hk : k < s + 7
    · obtain ⟨j, hj, rfl⟩ : ∃ j, j < 7 ∧ k = s + j := ⟨k - s, by omega, by omega⟩
      have hslot : ∀ i, (powerCode base exponent result counter running s)[j]? = some i →
          Holds p (s + j) i := fun i hi =>
        hcode j i (by rwa [List.getElem?_append_left (show j < 7 from hj)])
      have hjump : ∀ t, Holds p (s + j) (.jump t) → s ≤ t → t ≤ s + 7 →
          Within p visible s (s + (7 + code.length)) (s + j) := fun t h ha hb =>
        .jump h ha (by omega)
      rcases j with _ | _ | _ | _ | _ | _ | _ | j
      · exact .plain (hslot _ rfl) (Instruction.plain_assign _ _)
      · exact .plain (hslot _ rfl) (Instruction.plain_assign _ _)
      · exact .plain (hslot _ rfl) (Instruction.plain_binary (by simp) _ _ _)
      · exact .test (hslot _ rfl) (by omega) (by omega)
      · exact .plain (hslot _ rfl) (Instruction.plain_binary (by simp) _ _ _)
      · exact .plain (hslot _ rfl) (Instruction.plain_binary (by simp) _ _ _)
      · exact hjump _ (hslot _ rfl) (by omega) (by omega)
      · omega
    · have h := ih (hcode.drop) k (by omega) (by omega)
      rw [Nat.add_assoc] at h
      exact h.mono (Nat.le_add_right s 7)
  | @call s info code hinfo _ ih =>
    intro k h₁ h₂
    rw [List.length_cons, List.length_cons] at h₂ ⊢
    have hfirst := hcode 0 _ rfl
    have hsecond := hcode 1 _ rfl
    by_cases hk : k = s
    · subst hk
      exact .plain hfirst (Instruction.plain_assign _ _)
    · by_cases hk' : k = s + 1
      · exact .call hinfo ⟨hfirst, hsecond⟩ (Nat.le_refl s) hk'
      · have h := ih hcode.tail.tail k (by omega) (by omega)
        have hsame : s + 2 + code.length = s + (code.length + 1 + 1) := by omega
        rw [hsame] at h
        exact h.mono (Nat.le_add_right s 2)

end OnePass.Emission
