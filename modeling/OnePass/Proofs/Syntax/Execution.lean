import OnePass.Proofs.Derivation.Ownership
import OnePass.Proofs.Derivation.Preamble
import OnePass.Proofs.Syntax.Routing
import OnePass.Proofs.Syntax.Simulation
import OnePass.Proofs.Syntax.Writing

/-!
# Compiled texts do what they say

A text without calls, whose only function is the `main` that the program ends with, is run by
the machine as the text says: from cells that hold zero, first the statements, then the body
of `main`, which returns behind the last slot.

* `settled_of_comes`, `agrees_begun`: the states of a derivation, and the first of them.
* `Houses.runs`: a call of a function does what its body says and comes back.
* `executes_of_calls`: a text with the call of `main` behind it.
* `compile_executes`: **a compiled program prints and halts just as its text does.**
-/

namespace OnePass.Syntax

open OnePass.Derivation Emission Names Target
open Grammar (Mark)

section Returns

variable {fuel : Nat}

theorem Statement.ending_of_returns {s : Statement} (h : s.returns = true) (b : Bindings)
    (σ : Store) : (s.run fuel b σ).ending = some .returns := by
  cases s with
  | returnValue e | returnNothing => rfl
  | _ => cases h

/-- A block with a return among its statements does not come to its end. -/
theorem ne_falls_of_returnsFrom : ∀ (body : List Statement) (b : Bindings) (σ : Store),
    returnsFrom body = true → (blockRun fuel body b σ).ending ≠ some .falls
  | [], _, _, h => by cases h
  | s :: rest, b, σ, h => by
    have hany : (s.returns || returnsFrom rest) = true := List.any_cons.symm.trans h
    rw [blockRun, Run.andThen]
    split
    · rename_i hfalls
      rcases (Bool.or_eq_true _ _).mp hany with hs | hrest
      · rw [Statement.ending_of_returns hs] at hfalls
        cases hfalls
      · exact ne_falls_of_returnsFrom rest _ _ hrest
    · assumption

end Returns

section Arguments

theorem Expr.no_arguments : ∀ (e : Expr), e.isPlain = true → .act .takeArgument ∉ e.marks
  | .number _, _ | .name _, _ => by simp [Expr.marks, nameMark]
  | .power base exponent, h => by
    obtain ⟨hbase, hexponent⟩ := Bool.and_eq_true_iff.1 h
    simp [Expr.marks, word, base.no_arguments hbase, exponent.no_arguments hexponent]
  | .combine op left right, h => by
    obtain ⟨hleft, hright⟩ := Bool.and_eq_true_iff.1 h
    have hop : op.action ≠ .takeArgument := by cases op <;> decide
    simp [Expr.marks, word, hop.symm, left.no_arguments hleft, right.no_arguments hright]

theorem Relation.no_arguments (r : Relation) (h : r.isPlain = true) :
    .act .takeArgument ∉ r.marks := by
  obtain ⟨hleft, hright⟩ := Bool.and_eq_true_iff.1 h
  have hmarker : r.marker ≠ .takeArgument := by
    unfold marker
    split <;> nofun
  simp [Relation.marks, word, hmarker.symm, r.left.no_arguments hleft,
    r.right.no_arguments hright]

theorem no_arguments_params (params : List String) : .act .takeArgument ∉ paramMarks params := by
  have hfurther : ∀ params, Mark.act .takeArgument ∉ furtherParamMarks params := by
    intro params
    induction params with
    | nil => exact List.not_mem_nil
    | cons x rest ih => simp [furtherParamMarks, word, nameMark, ih]
  cases params with
  | nil => exact List.not_mem_nil
  | cons x rest => simp [paramMarks, nameMark, hfurther rest]

mutual

theorem Statement.no_arguments : ∀ (s : Statement) {inFunction : Bool},
    s.isPlain inFunction = true → .act .takeArgument ∉ s.marks
  | .assign x (.value e), _, h => by
    simp [Statement.marks, Assigned.marks, word, nameMark, e.no_arguments h]
  | .print e, _, h => by simp [Statement.marks, word, e.no_arguments h]
  | .returnValue e, _, h => by
    simp [Statement.marks, word, e.no_arguments (Bool.and_eq_true_iff.1 h).2]
  | .returnNothing, _, _ | .global _, _, _ => by simp [Statement.marks, word, nameMark]
  | .leave exit, _, _ => by cases exit <;> simp [Statement.marks, word, Exit.action]
  | .define f params body, _, h => by
    simp [Statement.marks, word, nameMark, no_arguments_params params, block_no_arguments body h]
  | .ifThen test body, _, h => by
    obtain ⟨htest, hbody⟩ := Bool.and_eq_true_iff.1 h
    simp [Statement.marks, word, test.no_arguments htest, block_no_arguments body hbody]
  | .ifElse test body other, _, h => by
    obtain ⟨h, hother⟩ := Bool.and_eq_true_iff.1 h
    obtain ⟨htest, hbody⟩ := Bool.and_eq_true_iff.1 h
    simp [Statement.marks, word, test.no_arguments htest, block_no_arguments body hbody,
      block_no_arguments other hother]
  | .loop test body, _, h => by
    obtain ⟨htest, hbody⟩ := Bool.and_eq_true_iff.1 h
    simp [Statement.marks, word, test.no_arguments htest, block_no_arguments body hbody]

/-- **No argument is counted** where there are no calls. -/
theorem block_no_arguments : ∀ (b : List Statement) {inFunction : Bool},
    blockIsPlain b inFunction = true → .act .takeArgument ∉ blockMarks b
  | [], _, _ => by simp [blockMarks]
  | s :: rest, _, h => by
    obtain ⟨hs, hrest⟩ := Bool.and_eq_true_iff.1 h
    simp [blockMarks, word, Statement.no_arguments s hs, block_no_arguments rest hrest]

end

end Arguments

section Houses

variable {E : Setting} {w : List Mark} {tr : Trace E w} {c : Config} {p : Program} {r : Routine}
  {B : Body} {row n m j k : Nat} {f : FunctionInfo}

/-- **A call of a function** does what its body says, and comes back to the slot behind the call. -/
theorem Houses.runs (hr : tr.Runnable c p) (h : Houses tr p c r B row n m j)
    (hcalls : Calls p k f) (hf : f.bare = B.function) {s : State} {σ : Store} (hs : s.slot = k)
    (hm : Mirrors c none 0 s.cells σ) (fuel : Nat) :
    let run := blockRun fuel r.body r.bindings σ
    (∀ e, run.ending = some e → ∃ s', Reaches p s s' ∧ s'.slot = k + 2 ∧
      s'.output = s.output ++ run.output) ∧
        (run.ending = none → Lasts p fuel s (s.output ++ run.output)) := by
  intro run
  obtain ⟨hresult, hreturn, hne⟩ := h.apart.home _ rfl
  have hcell : B.function.returnCell = f.returnCell := by rw [← hf, FunctionInfo.returnCell_bare]
  have hstart : B.function.start = f.start := by rw [← hf, FunctionInfo.start_bare]
  obtain ⟨hfrom, hle, -⟩ := (hr.settled n h.mark).temps
  have hcapacity := hr.capacity
  -- the slot to return to is stored, and the body is entered
  have hstore : step? p s = some (s.write B.function.returnCell (k + 2)) := by
    have hholds := hcalls.1
    rw [← hcell, ← hs] at hholds
    have hstep := Holds.assign hholds (by omega)
    rw [hs] at hstep
    exact hstep
  generalize hs₁ : s.write B.function.returnCell (k + 2) = s₁ at hstore
  have hslot₁ : s₁.slot = k + 1 := hs₁ ▸ congrArg (· + 1) hs
  have hsmall : f.start < 2 ^ 63 := by
    rw [← hstart, h.start]
    exact slots_small hr.toInto h.mark
  have hjump := Holds.jump (hslot₁ ▸ hcalls.2) hsmall
  have hentered : Reaches p s (s₁.goTo f.start) := .step hstore (.single hjump)
  have hmirrors : Mirrors c (some B.function) (k + 2) (s₁.goTo f.start).cells σ := by
    refine ⟨fun a ha hout => ?_, ?_⟩
    · rw [State.cells_goTo, ← hs₁, State.cells_write, if_neg (hout _ rfl)]
      exact hm.same a ha nofun
    · rintro _ ⟨⟩
      rw [State.cells_goTo, ← hs₁, State.cells_write, if_pos rfl]
      push_cast
      rfl
  have hbody := h.acts fuel (k + 2) _ σ (hstart.symm.trans h.start) hmirrors
  have hsame : (s₁.goTo f.start).output = s.output := by rw [← hs₁]; rfl
  refine ⟨fun e he => ?_, fun hnone => ?_⟩
  · obtain ⟨s₂, hreaches, hslot, hout, hm₂⟩ := hbody.ends e he
    rw [hsame] at hout
    cases e with
    | returns => exact ⟨s₂, hentered.trans hreaches, (Option.some.inj hslot).symm, hout⟩
    | leaves exit => cases hslot
    | falls =>
      -- at its end the body returns zero
      obtain ⟨hassign, hthrough, -⟩ := h.leaves (by
        by_contra hreturns
        exact ne_falls_of_returnsFrom r.body r.bindings σ (by simpa using hreturns) he)
      have hslot₂ : s₂.slot = tr.slots m := (Option.some.inj hslot).symm
      have hzero := Holds.assign (hslot₂ ▸ hassign) (by omega)
      generalize hs₃ : s₂.write B.function.result _ = s₃ at hzero
      have hslot₃ : s₃.slot = tr.slots m + 1 := hs₃ ▸ congrArg (· + 1) hslot₂
      have hback : s₃.cells B.function.returnCell = (k + 2 : Nat) := by
        rw [← hs₃, State.cells_write, if_neg (Ne.symm hne)]
        exact (hm₂ (by simp)).back _ rfl
      have hleave := Holds.jumpThrough (hslot₃ ▸ hthrough) (by omega) hback
      refine ⟨_, hentered.trans (hreaches.trans (.step hzero (.single hleave))), rfl, ?_⟩
      rw [← hout, ← hs₃]
      rfl
  · have hlasts := hbody.lasts hnone
    rw [hsame] at hlasts
    exact .before hentered hlasts

/-- **A text with a call of its function behind it** is run as the text says. -/
theorem executes_of_calls (hr : tr.Runnable c p) {text : Block} {b : Bindings}
    (hdoes : Acts tr p c none none 0 w.length fun fuel => blockRun fuel text b)
    (h : Houses tr p c r B row n m j) (hzero : tr.slots 0 = 0)
    (hcalls : Calls p (tr.slots w.length) f) (hf : f.bare = B.function)
    (hsize : p.size = tr.slots w.length + 2) :
    p.Executes (fun fuel => (programRun text b r fuel).ending.isSome)
      fun fuel => (programRun text b r fuel).output := by
  have hmirrors : Mirrors c none 0 State.initial.cells fun _ => 0 := ⟨fun _ _ _ => rfl, nofun⟩
  have hboth : ∀ fuel, (∀ e, (programRun text b r fuel).ending = some e →
      p.Halts (programRun text b r fuel).output) ∧ ((programRun text b r fuel).ending = none →
        Lasts p fuel .initial (programRun text b r fuel).output) := by
    intro fuel
    have htext := hdoes fuel 0 .initial (fun _ => 0) hzero.symm hmirrors
    rw [programRun, Run.andThen]
    split
    · rename_i hfalls
      obtain ⟨s, hreaches, hslot, hout, hm⟩ := htext.ends _ hfalls
      obtain ⟨hends, hlasts⟩ :=
        h.runs hr hcalls hf (Option.some.inj hslot).symm (hm (by simp)) fuel
      rw [hout] at hends hlasts
      refine ⟨fun e he => ?_, fun hnone => .before hreaches (hlasts hnone)⟩
      obtain ⟨s', hreaches', hslot', hout'⟩ := hends e he
      exact ⟨s', hreaches.trans hreaches', hslot'.trans hsize.symm, hout'⟩
    · rename_i hne
      refine ⟨fun e he => ?_, htext.lasts⟩
      -- outside of functions and loops a text only ends at its end
      obtain ⟨_, -, hslot, -⟩ := htext.ends e he
      cases e with
      | falls => exact absurd he hne
      | leaves | returns => cases hslot
  refine ⟨fun fuel hended => ?_, fun fuel hended => ?_⟩
  · obtain ⟨e, he⟩ := Option.isSome_iff_exists.1 hended
    exact (hboth fuel).1 e he
  · exact (hboth fuel).2 (by simpa using hended)

end Houses

end OnePass.Syntax

namespace OnePass.Names

/-- A function that can be called is on a row with its name. -/
theorem SymbolTable.name?_of_mem_functionsIn {t : SymbolTable} {s row : Nat} {name : String}
    (h : row ∈ t.functionsIn s name) : t.name? row = some name := by
  have hcarries := (Bool.and_eq_true_iff.1 (List.mem_filter.1 h).2).1
  exact eq_of_beq (Bool.and_eq_true_iff.1 hcarries).1

end OnePass.Names

namespace OnePass.Emission

open Names Target

variable {g : Generator} {line : Nat}

/-- **A program that is ended without an error** calls the latest `main` at top level. -/
theorem ends_callMain_clean : Ends (callMain line) g fun _ g' => g'.errors = #[] →
    g.errors = #[] ∧ ∃ row ∈ g.symbols.functionsIn Scopes.outermost mainName, ∃ f,
      g.symbols.function? row = some f ∧ Calls g'.memory.program g.programNext f ∧
        g'.programNext = g.programNext + 2 ∧
          Extends (fun _ => True) g.memory.program g'.memory.program := by
  simp only [callMain, ends_bind, ends_get]
  split
  · rename_i row hrow
    simp only [ends_bind]
    refine ends_functionOn.mono ?_
    rintro f g₁ ⟨rfl, hf⟩
    refine ends_jumpInto.mono ?_
    rintro _ g₂ rfl hnone
    refine ⟨hnone, row, List.mem_of_head? hrow, f, hf, calls_push _ f, ?_,
      (Extends.push_some trivial).trans (.push_some trivial)⟩
    simp only [Generator.programNext_append]
  · exact ends_report.2 fun hnone => absurd hnone Array.push_ne_empty

end OnePass.Emission

namespace OnePass.Derivation

open Emission Names Target Syntax
open Grammar (Mark Terminal)
open Machine

section Start

variable {c : Config} {source : String} {w : List Mark} {m : Machine} {g : Generator}
  {row : Nat} {f : FunctionInfo}

/-- **The states of a derivation without repairs** are settled. -/
theorem settled_of_comes (hc : c.validate = .ok ()) (h : Comes c source w m) :
    Settled c m.generator := by
  obtain ⟨table, htable, hw⟩ := h
  obtain ⟨past, hpast⟩ := reaches_iff_passed.1 hw.reaches
  have htended := tended_of_passed htable hc hpast
  obtain ⟨_, -, hnests⟩ := htended.nests
  obtain ⟨_, hkept⟩ := hnests.kept
  exact ⟨⟨_, _, _, hkept⟩, htended.secured.loopless⟩

/-- **A derivation begins** with the outermost scope, where nothing is bound. -/
theorem agrees_begun (c : Config) (source : String) :
    Agrees (.initial c.unit c.cellsFrom) (begun c source).generator := by
  have hstart : Agrees (.initial c.unit c.cellsFrom) (.ofConfig c) :=
    { mirror := by
        refine .outermost ⟨⟨_, rfl, rfl, Nat.zero_le _⟩, rfl, fun x => ?_⟩
        rw [SymbolTable.cellIn?]
        cases (Generator.ofConfig c).symbols.latestIn Scopes.outermost x true with
        | none => rfl
        | some row => exact SymbolTable.cell?_ofKeywords c.keywords row
      rooted := rfl
      unit := rfl
      next := rfl
      spare := rfl }
  rcases generator_begun c source with heq | ⟨-, heq⟩
  · rw [heq]
    exact hstart
  · rw [heq]
    exact hstart.record _

/-- **Numbers of a text can be read.** -/
theorem signed64?_of_spelled {keywords : List String} {i : Nat} {x : String}
    (hs : Mark.Spelled w (Lexical.scan keywords source).tokens)
    (h : w[i]? = some (.read .number x)) :
    Decimal.signed64? x.toList = some (Decimal.value x.toList : Int) := by
  have hread : (Terminal.number, x) ∈ Mark.readings w :=
    List.mem_filterMap.2 ⟨_, List.mem_of_getElem? h, rfl⟩
  have hmem := List.mem_map_of_mem (f := some) hread
  rw [← hs] at hmem
  obtain ⟨token, htoken, heq⟩ := List.mem_map.1 hmem
  obtain ⟨t, ht, heq⟩ := Option.map_eq_some_iff.1 heq
  obtain ⟨rfl, rfl⟩ := Prod.mk.inj heq
  have hkind : token.kind = .number := by
    unfold Terminal.ofToken? at ht
    cases hkind : token.kind with
    | number => rfl
    | keyword | symbol =>
      simp only [hkind] at ht
      exact absurd (List.find?_some ht) (by simp [Terminal.isLiteral])
    | identifier | endOfInput =>
      simp only [hkind] at ht
      cases ht
  obtain ⟨digits, hlexeme, hne, hdigits, hle⟩ := (Lexical.fits_of_mem_scan htoken).number hkind
  rw [hlexeme, String.toList_ofList,
    Decimal.signed64?_of_digits hne (List.all_eq_true.1 hdigits), if_pos hle]

/-- Where there is a function there are cells of variables. -/
theorem programSize_lt (h : Settled c g) (hf : g.symbols.function? row = some f)
    (hl : g.symbols.Lives row) : c.programSize < c.tempsFrom := by
  obtain ⟨_, _, _, hkept⟩ := h.kept
  have howned := hkept.owned
  obtain ⟨-, hheld⟩ := howned.functions row f (.inl ⟨hf, hl⟩)
  obtain ⟨⟨⟨hlt, k, hk⟩, -⟩, -⟩ := hheld f.result (by simp [FunctionInfo.cells])
  have hle := howned.memory.data_le
  have hfirst : c.programSize ≤ f.result := hk ▸ Nat.le_add_right _ _
  omega

end Start

section Accepted

variable {c : Config} {source : String} {o : Outcome} {g : Generator} {b : Block} {main : Routine}

/-- **A text without calls,** with the call of its function behind it, is run as it says. -/
theorem executes_of_parse (hc : c.validate = .ok ()) (hcapacity : c.capacity ≤ 2 ^ 63)
    (h : parse c source = .ok o) (hmain : callMain o.lastLine o.generator = .ok () g)
    (hclean : g.errors = #[]) (hb : ∀ s ∈ b, s.Graded)
    (hs : Mark.Spelled (blockMarks b) o.scan.tokens) (hplain : blockIsPlain b false = true)
    (honly : blockRoutines b (.initial c.unit c.cellsFrom) = [main]) :
    main.name = mainName ∧ Program.Executes g.memory.program
      (fun fuel => (programRun b (.initial c.unit c.cellsFrom) main fuel).ending.isSome)
      fun fuel => (programRun b (.initial c.unit c.cellsFrom) main fuel).output := by
  obtain ⟨-, tr, hstart, hend, hcomes⟩ := trace_of_spelled h hb hs
  have hlen : (blockMarks b).length ≤ (blockMarks b).length := Nat.le_refl _
  have hsettled : ∀ i ≤ (blockMarks b).length, Settled c (tr.state i) := fun i hi => by
    obtain ⟨m, hm, hgen, -⟩ := hcomes i hi
    exact hgen ▸ settled_of_comes hc hm
  have hlast := hend ▸ hsettled _ hlen
  obtain ⟨herrors, row, hrow, f, hf, hcalls, hnext, hext⟩ := ends_callMain_clean () g hmain hclean
  have hname := SymbolTable.name?_of_mem_functionsIn hrow
  have hlives : o.generator.symbols.Lives row := ⟨_, hname, rfl⟩
  -- the program lies in its zone, and so is shorter than the memory
  have hsize : g.memory.program.size < 2 ^ 63 := by
    obtain ⟨_, _, _, hkept⟩ := hlast.kept
    have hfits := (aloof_kept.callMain _ hkept () g hmain).owned.memory.size
    have hzone := programSize_lt hlast hf hlives
    have hzones := ((c.validate_eq_ok_iff).1 hc).2
    omega
  have hscan : o.scan = Lexical.scan c.keywords source := scan_of_parse h
  have hr : tr.Runnable c g.memory.program :=
    { orderly := hstart ▸ symbols_begun c source
      start := hstart ▸ function?_begun c source
      counted := by
        have hnone : Grammar.counted (blockMarks b) = 0 :=
          List.countP_eq_zero.2 fun k hk heq => block_no_arguments b hplain (of_decide_eq_true heq ▸ hk)
        rw [hnone]
        decide
      small := hsize
      program := hend ▸ hext
      keywords := rfl
      settled := hsettled
      errors := hend ▸ herrors
      numbers := signed64?_of_spelled (hscan ▸ hs)
      unit := ((c.validate_eq_ok_iff).1 hc).1
      capacity := hcapacity }
  have hfit := fit_begun c source
  have hagrees := agrees_begun c source
  rw [← hstart] at hfit hagrees
  obtain ⟨waiting, bodies, hpasses, hnone, hdoes⟩ :=
    block_does hr b hplain (by simp) (span_self _) hfit
  obtain rfl := hnone rfl
  obtain ⟨-, -, hdoes⟩ := hdoes none rfl (by simp)
  obtain ⟨hacts, hbodies⟩ := hdoes nofun _ hagrees
  rw [honly] at hbodies
  obtain ⟨B, rfl, hhoused⟩ : ∃ B, bodies = [B] ∧ Housed tr g.memory.program c main B := by
    cases hbodies with
    | cons h hnil =>
      cases hnil
      exact ⟨_, rfl, h⟩
  obtain ⟨row', n, m, j, hhouses⟩ := hhoused
  -- the function that is called is the only one
  have hbare : f.bare = B.function := by
    rcases hpasses.made row f (hend ▸ hf) with ⟨f₀, hf₀, -⟩ | ⟨⟨B', hB', heq⟩, -⟩
    · rw [hr.start] at hf₀
      cases hf₀
    · rw [← heq, List.mem_singleton.1 hB']
  refine ⟨?_, ?_⟩
  · obtain ⟨f₁, hf₁, hbare₁⟩ := hhouses.function
    have hkept := (hr.toInto.later hhouses.mark hlen).kept row' f₁ hf₁
    obtain ⟨f₂, hf₂, hbare₂⟩ := hkept
    have hnamed := hr.toClean.named hhouses.mark hlen hhouses.named
    rw [hend] at hf₂
    have hnamed' : o.generator.symbols.name? row' = some main.name := hend ▸ hnamed
    have hlives' : o.generator.symbols.Lives row' := by
      obtain ⟨name, hname', hunmarked⟩ := hhouses.lives
      obtain rfl : name = main.name := Option.some.inj (hname'.symm.trans hhouses.named)
      exact ⟨_, hnamed', hunmarked⟩
    obtain ⟨_, _, _, hkept⟩ := hlast.kept
    have hresult : f₂.result = f.result := by
      have heq := congrArg FunctionInfo.result (hbare₂.trans hbare₁)
      rwa [FunctionInfo.result_bare, FunctionInfo.result_bare, ← hbare,
        FunctionInfo.result_bare] at heq
    obtain rfl := hkept.owned.apart row f row' f₂ f.result (.inl ⟨hf, hlives⟩) (.inl ⟨hf₂, hlives'⟩)
      (by simp [FunctionInfo.cells]) (by simp [FunctionInfo.cells, hresult])
    exact Option.some.inj (hnamed'.symm.trans hname)
  · obtain ⟨hzero, -⟩ := empty_begun c source
    have hslots : tr.slots (blockMarks b).length = o.generator.programNext :=
      congrArg Generator.programNext hend
    exact executes_of_calls hr hacts hhouses ((congrArg Generator.programNext hstart).trans hzero)
      (hslots ▸ hcalls) hbare (hnext.trans (congrArg (· + 2) hslots.symm))

end Accepted

end OnePass.Derivation

namespace OnePass

open OnePass.Derivation Emission Syntax Target
open Grammar (Mark)

/-- A compilation has no errors if none of its parts has any. -/
theorem hasErrors_eq_false {o : Outcome} {g : Generator} (h : (o.conclude g).hasErrors = false) :
    o.scan.errors = [] ∧ o.syntaxErrors = [] ∧ g.errors = #[] := by
  simpa [Compilation.hasErrors, Outcome.conclude, and_assoc] using h

/-- **A compiled program prints and halts just as its text does.** The text is a block. If it has
no calls, lists and elements, and no function but one, which is the `main` that the program ends
with, then the machine never gets stuck; it halts just when the run of the statements and then of
the body of `main` ends, for some bound on the turns of its loops, and has then printed the same;
and it comes to print just what such runs print. -/
theorem compile_executes (c : Config) (source : String) {r : Compilation}
    (h : compile c source = .ok r) (hclean : r.hasErrors = false) (hcapacity : c.capacity ≤ 2 ^ 63) :
    ∃ o g, parse c (c.preamble source) = .ok o ∧ callMain o.lastLine o.generator = .ok () g ∧
      r.code = some g.memory.listing ∧
      (∃ b : Block, (∀ s ∈ b, s.Graded) ∧ Mark.Spelled (blockMarks b) r.tokens) ∧
      ∀ (b : Block) (main : Routine), (∀ s ∈ b, s.Graded) → Mark.Spelled (blockMarks b) r.tokens →
        blockIsPlain b false = true → blockRoutines b (.initial c.unit c.cellsFrom) = [main] →
        let p := g.memory.program
        let run := programRun b (.initial c.unit c.cellsFrom) main
        main.name = mainName ∧ Program.Unstuck p ∧
          (∀ output, Program.Halts p output ↔
            ∃ fuel, (run fuel).ending.isSome ∧ (run fuel).output = output) ∧
          ∀ output, Program.Prints p output ↔ ∃ fuel, output <+: (run fuel).output := by
  obtain ⟨hvalid, o, g, ho, hmain, rfl⟩ := outcome_of_compile h
  simp only [Compilation.hasErrors, Outcome.conclude, Bool.not_eq_false', Bool.and_eq_true,
    List.isEmpty_iff, Array.toList_eq_nil_iff] at hclean
  obtain ⟨⟨-, hsyntax⟩, hsemantic⟩ := hclean
  obtain ⟨b, -, hgraded, hspelled, -⟩ := trace_of_parse ho hsyntax
  refine ⟨o, g, ho, hmain, ?_, ⟨b, hgraded, hspelled⟩, ?_⟩
  · simp [Outcome.conclude, hsemantic]
  · intro b main hb hs hplain honly p run
    obtain ⟨hname, hexecutes⟩ :=
      executes_of_parse hvalid hcapacity ho hmain hsemantic hb hs hplain honly
    exact ⟨hname, hexecutes.unstuck, fun _ => hexecutes.halts_iff,
      fun _ => hexecutes.prints_iff⟩

/-- A loop that counts up to a number of the outermost scope and prints powers of two. -/
theorem compile_executes_powers :
    let source := "n = 3 ; def main ( ) : i = 0 ; while ( i < n ) i = i + 1 ; print ( 2 ** i ) ; ; ;"
    Config.standard.capacity ≤ 2 ^ 63 ∧ ∃ r o g, compile .standard source = .ok r ∧
      r.hasErrors = false ∧ parse .standard source = .ok o ∧
      callMain o.lastLine o.generator = .ok () g ∧ r.code = some g.memory.listing ∧
      Program.Unstuck g.memory.program ∧ Program.Halts g.memory.program [2, 4, 8] := by
  intro source
  let body : Block := [.assign "i" (.value (.number "0")),
    .loop ⟨.name "i", false, .name "n"⟩
      [.assign "i" (.value (.combine .add (.name "i") (.number "1"))),
        .print (.power (.number "2") (.name "i"))]]
  let text : Block := [.assign "n" (.value (.number "3")), .define "main" [] body]
  have h : (compile .standard source).toOption.map (fun r =>
      (r.hasErrors, decide (Mark.Spelled (blockMarks text) r.tokens))) = some (false, true) := by
    rw [compile_eq, Grammar.table_eq_ok]
    decide +kernel
  have hgraded : ∀ s ∈ text, s.Graded := by
    have hbody : ∀ s ∈ body, s.Graded := by
      simp only [body, List.mem_cons, List.not_mem_nil, or_false, forall_eq_or_imp, forall_eq]
      refine ⟨.assign (.number _), .loop ⟨.name _, .name _⟩ ?_⟩
      simp only [List.mem_cons, List.not_mem_nil, or_false, forall_eq_or_imp, forall_eq]
      exact ⟨.assign (.combine (.name _) (.number _) (by decide) (by decide)),
        .print (.power (.number _) (.name _) rfl (by decide))⟩
    simp only [text, List.mem_cons, List.not_mem_nil, or_false, forall_eq_or_imp, forall_eq]
    exact ⟨.assign (.number _), .define hbody⟩
  have hcapacity : Config.standard.capacity ≤ 2 ^ 63 := by decide
  refine ⟨hcapacity, ?_⟩
  cases hr : compile .standard source with
  | error e =>
    rw [hr] at h
    cases h
  | ok r =>
    rw [hr] at h
    obtain ⟨hclean, hspelled⟩ := Prod.mk.inj (Option.some.inj h)
    obtain ⟨o, g, ho, hmain, hcode, -, hruns⟩ := compile_executes .standard source hr hclean hcapacity
    obtain ⟨-, hunstuck, hhalts, -⟩ := hruns text _ hgraded (of_decide_eq_true hspelled) rfl rfl
    exact ⟨r, o, g, rfl, hclean, ho, hmain, hcode, hunstuck, (hhalts _).2 ⟨4, by decide +kernel⟩⟩

end OnePass
