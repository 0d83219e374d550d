import OnePass.Proofs.Syntax.Evaluation

/-!
# Runs of the machine conform to runs of the text

The cells of variables hold what the text says they do, but for the cell that the function
around is to return through. Where a run of the text ends, the machine comes to the slot that
the ending leads to, having printed the same; and while it does not end, the machine goes on.

* `Mirrors`: what cells hold. `Bindings.Apart`: the cells of names at a place.
* `exitSlot?`: the slot that an ending leads to.
* `Conforms`: the machine does what a run says. `Conforms.andThen`, `turns_conform`.
-/

namespace OnePass.Syntax

open OnePass.Derivation Emission Names Target
open Grammar (Action Mark Terminal)

/-- **What cells hold:** the variables are as in the text, and the return cell of the function around
holds the slot to return to. -/
structure Mirrors (c : Config) (f? : Option FunctionInfo) (back : Nat) (cells : Cells)
    (σ : Store) : Prop where
  same : ∀ a < c.tempsFrom, (∀ f, f? = some f → a ≠ f.returnCell) → cells a = σ a
  back : ∀ f, f? = some f → cells f.returnCell = back

/-- **The cells of names at a place** lie below the temporaries, and apart from the return cell of
the function around. -/
structure Bindings.Apart (b : Bindings) (c : Config) (f? : Option FunctionInfo) : Prop where
  names : ∀ x a, b.read? x = some a → a < c.tempsFrom ∧ ∀ f, f? = some f → a ≠ f.returnCell
  home : ∀ f, f? = some f →
    f.result < c.tempsFrom ∧ f.returnCell < c.tempsFrom ∧ f.result ≠ f.returnCell

section Mirrors

variable {c : Config} {f? : Option FunctionInfo} {back : Nat} {cells : Cells} {σ : Store}
  {b : Bindings} {x : String} {a : Nat}

/-- What a name is assigned to, it is read from. -/
theorem Bindings.read?_of_own? (h : b.own? x = some a) : b.read? x = some a := by
  rw [own?] at h
  rw [read?]
  generalize b.frames = frames at h ⊢
  induction frames with
  | nil => exact h
  | cons f outer ih =>
    rw [sameBody] at h
    rw [List.findSome?_cons]
    split at h
    · rw [List.findSome?_cons] at h
      split at h
      · exact h
      · exact ih h
    · rw [List.findSome?_cons] at h
      split at h
      · exact h
      · cases h

theorem Mirrors.known (h : Mirrors c f? back cells σ) (ha : b.Apart c f?) : b.Known cells σ :=
  fun x a hx => h.same a (ha.names x a hx).1 (ha.names x a hx).2

/-- Silent code leaves the variables alone. -/
theorem Mirrors.silent {p : Program} {limit : Nat} {s s' : State}
    (h : Mirrors c f? back s.cells σ) (ha : b.Apart c f?) (hs : Silent p limit s s')
    (hlimit : c.tempsFrom ≤ limit) : Mirrors c f? back s'.cells σ where
  same d hd hne := by
    rw [hs.cells d (Nat.lt_of_lt_of_le hd hlimit)]
    exact h.same d hd hne
  back f hf := by
    rw [hs.cells _ (Nat.lt_of_lt_of_le (ha.home f hf).2.1 hlimit)]
    exact h.back f hf

/-- A name is written in the cells and in the text. -/
theorem Mirrors.write {s : State} (h : Mirrors c f? back s.cells σ) (ha : b.Apart c f?)
    (hx : b.read? x = some a) (v : Int) :
    Mirrors c f? back (s.write a v).cells (Function.update σ a v) where
  same d hd hne := by
    rw [State.cells_write, Function.update_apply, h.same d hd hne]
  back f hf := by
    rw [State.cells_write, if_neg (Ne.symm ((ha.names x a hx).2 f hf))]
    exact h.back f hf

end Mirrors

section Apart

variable {E : Setting} {c : Config} {f? : Option FunctionInfo} {inLoop : Bool} {g : Generator}
  {b : Bindings}

/-- The definitions that are open are on rows that live. -/
theorem lives_of_nesting {t : SymbolTable} {globals : List Nat} {layers : List Grammar.Layer}
    {defs : List Definition} {cur : Nat} (h : Nesting t globals layers defs cur) :
    ∀ d ∈ defs, t.Lives d.row := by
  induction h with
  | outermost => nofun
  | loop _ _ _ ih => exact ih
  | header _ _ _ _ hl _ _ _ ih => exact List.forall_mem_cons.2 ⟨hl, ih⟩
  | body _ _ _ _ hl _ ih => exact List.forall_mem_cons.2 ⟨hl, ih⟩

/-- **The cells of names** at a place that a statement can be compiled in. -/
theorem Agrees.apart (hb : Agrees b g) (hs : Settled c g) (hg : Fit E f? inLoop g) :
    b.Apart c f? := by
  obtain ⟨_, _, _, hkept⟩ := hs.kept
  have howned := hkept.owned
  -- the function around is on the row of the innermost definition
  have haround : ∀ f, f? = some f → ∃ row f', g.Has row f' ∧ f'.result = f.result ∧
      f'.returnCell = f.returnCell := by
    rintro f rfl
    obtain ⟨d, rest, f', hdefs, -, hf', hbare⟩ := hg.definition
    have hlives := lives_of_nesting hkept.nesting d (hdefs ▸ List.mem_cons_self)
    have hresult : f'.bare.result = f.bare.result := congrArg FunctionInfo.result hbare
    have hreturn : f'.bare.returnCell = f.bare.returnCell :=
      congrArg FunctionInfo.returnCell hbare
    exact ⟨d.row, f', .inl ⟨hf', hlives⟩, hresult, hreturn⟩
  refine ⟨fun x a hx => ?_, fun f hf => ?_⟩
  · obtain ⟨row, hsees⟩ := hb.sees_of_read? hx
    refine ⟨hs.lt_of_sees hsees, fun f hf heq => ?_⟩
    obtain ⟨r, f', hhas, -, hreturn⟩ := haround f hf
    have hmem : a ∈ f'.cells := by
      rw [FunctionInfo.cells, heq, hreturn]
      simp
    obtain ⟨hparam, -⟩ := howned.parameters row a r f' hsees hhas hmem
    have hnodup := (howned.functions r f' hhas).1
    rw [FunctionInfo.cells, List.nodup_append] at hnodup
    exact hnodup.2.2 a hparam f'.returnCell (by simp) (heq.trans hreturn.symm)
  · obtain ⟨r, f', hhas, hresult, hreturn⟩ := haround f hf
    obtain ⟨hnodup, hheld⟩ := howned.functions r f' hhas
    have hlt : ∀ a ∈ f'.cells, a < c.tempsFrom := fun a ha =>
      Nat.lt_of_lt_of_le (hheld a ha).1.1.1 howned.memory.data_le
    rw [← hresult, ← hreturn]
    refine ⟨hlt _ (by simp [FunctionInfo.cells]), hlt _ (by simp [FunctionInfo.cells]), fun heq => ?_⟩
    rw [FunctionInfo.cells, List.nodup_append, heq] at hnodup
    simp at hnodup

end Apart

/-- **The slot that an ending leads to:** behind the statement, to an end of the loop around, or back
from the function around. -/
def exitSlot? (f? : Option FunctionInfo) (l? : Option Loop) (behind back : Nat) :
    Ending → Option Nat
  | .falls => some behind
  | .leaves exit => l?.map (·.target exit)
  | .returns => f?.map fun _ => back

/-- **The machine does what a run says.** -/
structure Conforms (p : Program) (c : Config) (f? : Option FunctionInfo) (back : Nat)
    (exit? : Ending → Option Nat) (fuel : Nat) (s : State) (r : Run) : Prop where
  ends : ∀ e, r.ending = some e → ∃ s', Reaches p s s' ∧ exit? e = some s'.slot ∧
    s'.output = s.output ++ r.output ∧ (e ≠ .returns → Mirrors c f? back s'.cells r.store)
  lasts : r.ending = none → Lasts p fuel s (s.output ++ r.output)

section Conforms

variable {p : Program} {c : Config} {f? : Option FunctionInfo} {l? : Option Loop} {back fuel : Nat}
  {exit? exit?' : Ending → Option Nat} {s s' : State} {r : Run} {σ : Store} {out : List Int}

namespace Conforms

/-- What comes behind something that has been printed. -/
theorem prepend (h : Reaches p s s') (hout : s'.output = s.output ++ out)
    (hr : Conforms p c f? back exit? fuel s' r) :
    Conforms p c f? back exit? fuel s { r with output := out ++ r.output } where
  ends e he := by
    obtain ⟨s₁, hreaches, hslot, houtput, hmirrors⟩ := hr.ends e he
    refine ⟨s₁, h.trans hreaches, hslot, ?_, hmirrors⟩
    rw [houtput, hout, List.append_assoc]
  lasts he := by
    have hl := hr.lasts he
    rw [hout, List.append_assoc] at hl
    exact .before h hl

/-- What comes behind silent code. -/
theorem before (h : Reaches p s s') (hout : s'.output = s.output)
    (hr : Conforms p c f? back exit? fuel s' r) : Conforms p c f? back exit? fuel s r := by
  have hsame : s'.output = s.output ++ [] := by rw [hout, List.append_nil]
  have h' := prepend h hsame hr
  rwa [List.nil_append] at h'

/-- A step makes a run longer. -/
theorem step (h : step? p s = some s') (hout : s'.output = s.output)
    (hr : Conforms p c f? back exit? fuel s' r) : Conforms p c f? back exit? (fuel + 1) s r where
  ends e he := (before (.single h) hout hr).ends e he
  lasts he := by
    have hl := hr.lasts he
    rw [hout] at hl
    exact hl.step h

/-- A run that ends at once. -/
theorem of_silent {e : Ending} (h : Reaches p s s') (hslot : exit? e = some s'.slot)
    (hout : s'.output = s.output) (hm : e ≠ .returns → Mirrors c f? back s'.cells σ) :
    Conforms p c f? back exit? fuel s (.silent σ e) where
  ends := by
    rintro _ ⟨⟩
    exact ⟨s', h, hslot, by rw [hout]; exact (List.append_nil _).symm, hm⟩
  lasts := nofun

/-- The slots behind what falls through may be passed by more code. -/
theorem fallsTo {mid behind : Nat}
    (h : Conforms p c f? back (exitSlot? f? l? mid back) fuel s r)
    (hpass : ∀ s', s'.slot = mid → Mirrors c f? back s'.cells r.store → ∃ s'', Reaches p s' s'' ∧
      s''.slot = behind ∧ s''.output = s'.output ∧ Mirrors c f? back s''.cells r.store) :
    Conforms p c f? back (exitSlot? f? l? behind back) fuel s r where
  ends e he := by
    obtain ⟨s₁, hreaches, hslot, hout, hmirrors⟩ := h.ends e he
    cases e with
    | falls =>
      obtain ⟨s₂, hreaches', hslot', hout', hmirrors'⟩ :=
        hpass s₁ (Option.some.inj hslot).symm (hmirrors (by simp))
      exact ⟨s₂, hreaches.trans hreaches', congrArg some hslot'.symm, hout'.trans hout,
        fun _ => hmirrors'⟩
    | leaves exit => exact ⟨s₁, hreaches, hslot, hout, hmirrors⟩
    | returns => exact ⟨s₁, hreaches, hslot, hout, hmirrors⟩
  lasts := h.lasts

/-- **One run behind the other.** -/
theorem andThen {mid behind : Nat} {next : Store → Run}
    (h : Conforms p c f? back (exitSlot? f? l? mid back) fuel s r)
    (hnext : ∀ s', s'.slot = mid → Mirrors c f? back s'.cells r.store →
      Conforms p c f? back (exitSlot? f? l? behind back) fuel s' (next r.store)) :
    Conforms p c f? back (exitSlot? f? l? behind back) fuel s (r.andThen next) := by
  have hsame : r.ending ≠ some .falls →
      Conforms p c f? back (exitSlot? f? l? behind back) fuel s r := fun hne =>
    ⟨fun e he => by
      obtain ⟨s₁, hreaches, hslot, hrest⟩ := h.ends e he
      refine ⟨s₁, hreaches, ?_, hrest⟩
      cases e with
      | falls => exact absurd he hne
      | leaves exit => exact hslot
      | returns => exact hslot, h.lasts⟩
  unfold Run.andThen
  split
  · rename_i hfalls
    obtain ⟨s₁, hreaches, hslot, hout, hmirrors⟩ := h.ends _ hfalls
    exact prepend hreaches hout (hnext s₁ (Option.some.inj hslot).symm (hmirrors (by simp)))
  · rename_i hne
    exact hsame hne

end Conforms

/-- **The turns of a loop.** The machine tests, runs the body and comes back, and takes a step at
least in every turn. -/
theorem turns_conform {test : Store → Bool} {body : Store → Run} {start first last behind : Nat}
    (htest : ∀ s σ, s.slot = start → Mirrors c f? back s.cells σ → ∃ s₁ s₂, Reaches p s s₁ ∧
      s₁.output = s.output ∧ step? p s₁ = some s₂ ∧ s₂.output = s₁.output ∧
      Mirrors c f? back s₂.cells σ ∧ s₂.slot = if test σ then first else behind)
    (hbody : ∀ s σ, s.slot = first → Mirrors c f? back s.cells σ →
      Conforms p c f? back (exitSlot? f? (some ⟨start, behind⟩) last back) fuel s (body σ))
    (hback : Holds p last (.jump start)) (hstart : start < 2 ^ 63) :
    ∀ k ≤ fuel, ∀ s σ, s.slot = start → Mirrors c f? back s.cells σ →
      Conforms p c f? back (exitSlot? f? l? behind back) k s (turns test body k σ) := by
  intro k
  induction k with
  | zero =>
    intro _ s σ _ _
    refine ⟨nofun, fun _ => ⟨0, s, Nat.le_refl _, rfl, (List.append_nil _).symm⟩⟩
  | succ k ih =>
    intro hk s σ hs hm
    obtain ⟨s₁, s₂, hreaches, hout, hstep, hout', hm₂, hslot⟩ := htest s σ hs hm
    refine .before hreaches hout (.step hstep hout' ?_)
    rw [turns]
    cases htrue : test σ with
    | false =>
      rw [htrue] at hslot
      exact .of_silent (.refl p s₂) (congrArg some hslot.symm) rfl fun _ => hm₂
    | true =>
      rw [htrue, if_pos rfl] at hslot
      rw [if_pos rfl]
      have hturn := hbody s₂ σ hslot hm₂
      unfold Run.turn
      split
      -- the next turn begins behind the body, or where a continue leads
      · rename_i hfalls
        obtain ⟨s₃, hreaches', hslot', hout₃, hm₃⟩ := hturn.ends _ hfalls
        have hslot₃ : s₃.slot = last := (Option.some.inj hslot').symm
        have hjump : step? p s₃ = some (s₃.goTo start) := Holds.jump (hslot₃ ▸ hback) hstart
        exact .prepend (hreaches'.trans (.single hjump)) hout₃
          (ih (Nat.le_of_lt hk) (s₃.goTo start) _ rfl (hm₃ (by simp)))
      · rename_i hcontinues
        obtain ⟨s₃, hreaches', hslot', hout₃, hm₃⟩ := hturn.ends _ hcontinues
        exact .prepend hreaches' hout₃
          (ih (Nat.le_of_lt hk) s₃ _ (Option.some.inj hslot').symm (hm₃ (by simp)))
      · rename_i hbreaks
        obtain ⟨s₃, hreaches', hslot', hout₃, hm₃⟩ := hturn.ends _ hbreaks
        refine ⟨?_, nofun⟩
        rintro _ ⟨⟩
        exact ⟨s₃, hreaches', hslot', hout₃, fun _ => hm₃ (by simp)⟩
      · rename_i hfalls hcontinues hbreaks
        refine ⟨fun e he => ?_, fun hnone => ?_⟩
        · cases e with
          | falls => exact absurd he hfalls
          | leaves exit =>
            cases exit with
            | breaks => exact absurd he hbreaks
            | continues => exact absurd he hcontinues
          | returns => exact hturn.ends _ he
        · exact (hturn.lasts hnone).mono (by omega)

end Conforms

end OnePass.Syntax
