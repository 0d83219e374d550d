import OnePass.Proofs.Derivation.Preamble
import OnePass.Proofs.Derivation.Recovery
import OnePass.Proofs.Emission.Cautious
import OnePass.Proofs.Syntax.Execution
import OnePass.Proofs.Syntax.Outermost
import OnePass.Proofs.Target.Activations

/-!
# Functions return to where they were called

In a text without errors no function is retired, so no return cell is handed out again, and calls
only write it. As long as no function is called while it is active, and no pointer to a return cell
is written through, each return leads behind the call that it belongs to.

* `cautious_of_passed`: every run spares return cells until it reports an error.
* `exists_bodied`: an accepted text is compiled into bodies.
* `returning_of_parse`: **return cells are written by calls only.**
* `compile_returns`: **calls and returns nest** in every run of a compiled program that spoils none
  of the slots to return to. Without recursion only pointers could.
-/

namespace OnePass.Emission

open Names

/-- **The functions of a program,** with nothing said of their values. -/
def Generator.Defines (g : Generator) (f : FunctionInfo) : Prop :=
  ∃ row f', g.symbols.function? row = some f' ∧ f'.bare = f

end OnePass.Emission

namespace OnePass.Derivation

open Emission Names Target Syntax
open Grammar (Mark Table)
open Machine

section Sparing

variable {E : Setting} {table : Table} {m m' : Machine} {F : Fence} {source : String}

/-- A move that leaves no errors finds none. -/
theorem errors_of_move (hscan : m.Secured E.config) (hmove : Move table m m')
    (h : m'.generator.errors = #[]) : m.generator.errors = #[] := by
  by_cases hact : ∃ a rest, m.goals = .act a :: rest
  · obtain ⟨a, rest, hg⟩ := hact
    obtain ⟨g, hp, rfl⟩ := exists_perform hg hmove
    obtain ⟨new, heq, -⟩ := (reports_perform a m.lastLexeme m.lastLine).ends m.generator _ _ hp
    rw [show g.errors = #[] from h] at heq
    exact Array.toList_eq_nil_iff.1 (List.append_eq_nil_iff.1 heq.symm).1
  · have hne : ∀ a rest, m.goals ≠ .act a :: rest := fun a rest hg => hact ⟨a, rest, hg⟩
    rcases generator_move hscan.scanning hne hmove with hgen | ⟨-, hgen⟩
    · rwa [hgen] at h
    · rwa [hgen] at h

/-- **Every move spares return cells,** as long as there are no errors. -/
theorem cautious_move (hsecured : m.Secured E.config) (h : Cautious E.config F 0 m.generator)
    (hmove : Move table m m') (hclean : m'.generator.errors = #[]) :
    ∃ F', Cautious E.config F' 0 m'.generator := by
  by_cases hact : ∃ a rest, m.goals = .act a :: rest
  · obtain ⟨a, rest, hg⟩ := hact
    obtain ⟨g, hp, rfl⟩ := exists_perform hg hmove
    obtain ⟨header, hcalm, hheader⟩ := hsecured.perform hg
    exact cautious_perform h hcalm hheader _ _ hp hclean
  · have hne : ∀ a rest, m.goals ≠ .act a :: rest := fun a rest hg => hact ⟨a, rest, hg⟩
    rcases generator_move hsecured.scanning hne hmove with hgen | ⟨-, hgen⟩
    · exact ⟨F, hgen ▸ h⟩
    · exact ⟨F, hgen ▸ h.record _⟩

/-- **Every run spares return cells** until it reports an error. -/
theorem cautious_of_passed (htable : Grammar.table = .ok table) {past : List Machine}
    (h : Passed table (begun E.config source) past m) (hclean : m.generator.errors = #[]) :
    ∃ F, Cautious E.config F 0 m.generator := by
  induction h with
  | start =>
    rcases generator_begun E.config source with hgen | ⟨-, hgen⟩
    · exact ⟨.empty, hgen ▸ cautious_ofConfig⟩
    · exact ⟨.empty, hgen ▸ cautious_ofConfig.record _⟩
  | move hpast hmove ih =>
    have hsecured := (framed_of_passed htable hpast).secured
    obtain ⟨F, h⟩ := ih (errors_of_move hsecured hmove hclean)
    exact cautious_move hsecured h hmove hclean

end Sparing

section Returning

variable {config : Config} {source : String} {o : Outcome} {g : Generator}

/-- **An accepted text is compiled into bodies.** -/
theorem exists_bodied (h : parse config source = .ok o) (he : o.syntaxErrors = [])
    (hsource : source.length < 2 ^ 63) (hmain : callMain o.lastLine o.generator = .ok () g)
    (hsize : g.programNext < 2 ^ 63) :
    ∃ bodies, Bodied g.Defines g.memory.program bodies := by
  obtain ⟨hsymbols, hprogram⟩ := ends_callMain_eq () g hmain
  have hext : Extends (fun _ => True) o.generator.memory.program g.memory.program := by
    rcases hprogram with hsame | ⟨_, -, _, -, hpush⟩
    · exact hsame ▸ .refl _ _
    · rw [hpush]
      exact (Extends.push_some trivial).trans (.push_some trivial)
  obtain ⟨b, tr, bodies, -, -, hp, hstart, hend, hlaid, hpasses⟩ :=
    exists_laid h he hsource hext hsize
  rw [← hend] at hsymbols hprogram
  have hlen : (blockMarks b).length ≤ (blockMarks b).length := Nat.le_refl _
  have hknows : Knows tr g.Defines := by
    rintro n hn f' ⟨row, -, hrow, -⟩
    obtain ⟨f'', hf'', hbare⟩ := (hp.later hn hlen).kept row f' hrow
    exact ⟨f''.bare, ⟨row, f'', hsymbols ▸ hf'', rfl⟩, hbare⟩
  have hframed : Framed tr g.memory.program g.Defines [] 0 (blockMarks b).length
      (tr.slots 0) (tr.slots (blockMarks b).length) bodies :=
    block_framed hp hknows b hlaid hlen around_none
  obtain ⟨hzero, houtermost⟩ := empty_begun config source
  have hfirst : tr.slots 0 = 0 := (congrArg Generator.programNext hstart).trans hzero
  have hcurrent : (tr.state (blockMarks b).length).currentScope = Scopes.outermost := by
    rw [hend, hpasses.current, houtermost]
  have hspares : ∀ B ∈ bodies, ∀ k t, (k < B.start ∨ B.behind ≤ k) → Leads g.memory.program k t →
      B.start ≤ t → t < B.behind →
        t = B.start ∧ CallJump g.Defines g.memory.program k ∧ t ≤ k := by
    intro B hB k t hk hl ht ht'
    by_cases hlt : k < tr.slots (blockMarks b).length
    · exact hframed.spares B hB k t (by omega) hlt hk hl ht ht'
    · exact (called_of_ends hp hcurrent hprogram (Nat.le_of_not_lt hlt) hl).spares hp hknows
        (hframed.hidden B hB) ht ht'
  have hbody : ∀ f, g.Defines f → ∃ B ∈ bodies, B.function = f.bare := by
    rintro f ⟨row, f', hrow, rfl⟩
    rw [hsymbols, hend] at hrow
    rcases hpasses.made row f' hrow with ⟨f₀, hf₀, -⟩ | ⟨hB, -⟩
    · rw [function?_begun] at hf₀
      cases hf₀
    · exact hB
  have haround : ∀ B ∈ bodies, 0 < B.start ∧ B.start < B.behind ∧ B.behind < 2 ^ 63 ∧
      Holds g.memory.program (B.start - 1) (.jump B.behind) := fun B hB => by
    obtain ⟨hpos, hlt, hle, hjump⟩ := hframed.inside B hB
    exact ⟨by omega, hlt, Nat.lt_of_le_of_lt hle (slots_small hp hlen), hjump⟩
  have hback := backward_of_spares hbody
    (fun B hB => ⟨(haround B hB).2.1, Nat.lt_trans (haround B hB).2.1 (haround B hB).2.2.1⟩) hspares
  refine ⟨bodies, hbody, haround, fun B hB k t hk hl ht ht' => (hspares B hB k t hk hl ht ht').2.1,
    hback, (block_routed hp hknows hback b hlaid hlen nofun).closed, fun k c hc => ?_⟩
  by_cases hlt : k < tr.slots (blockMarks b).length
  · exact block_leftWithin hp b hlaid hlen k c (by omega) hlt hc
  · -- the call of `main` stands behind the text
    have hbehind := Nat.le_of_not_lt hlt
    rcases hprogram with hsame | ⟨_, -, f, -, hpush⟩
    · rw [hsame] at hc
      exact absurd hc.lt_size (Nat.not_lt.2 hbehind)
    · rw [hpush] at hc
      rcases holds_push_iff.1 hc with hc | ⟨-, heq⟩
      · rcases holds_push_iff.1 hc with hc | ⟨-, heq⟩
        · exact absurd hc.lt_size (Nat.not_lt.2 hbehind)
        · have hop := congrArg Instruction.opcode (Option.some.inj heq)
          cases hop
      · exact absurd (Option.some.inj heq) (jump_ne_jumpThrough _ _)

/-- **Return cells are written by calls only,** in a text without errors. Its configuration has fewer
cells than there are words. -/
theorem returning_of_parse (h : parse config source = .ok o) (he : o.syntaxErrors = [])
    (hvalid : config.validate = .ok ()) (hcapacity : config.capacity < 2 ^ 63)
    (hsource : source.length < 2 ^ 63) (hmain : callMain o.lastLine o.generator = .ok () g)
    (hclean : g.errors = #[]) : Returning g.Defines g.memory.program := by
  obtain ⟨hunit, hzones⟩ := (config.validate_eq_ok_iff).1 hvalid
  let E : Setting := ⟨config, hunit, hzones, Nat.le_of_lt hcapacity, fun _ => False, fun _ => nofun⟩
  obtain ⟨table, m, htable, hreaches, -, ho⟩ := reaches_of_parse h
  obtain ⟨past, hpassed⟩ := reaches_iff_passed.1 hreaches
  have hgen : o.generator = m.generator := congrArg Outcome.generator ho
  obtain ⟨F, hF⟩ := cautious_of_passed (E := E) htable hpassed
    (hgen ▸ (ends_callMain_clean () g hmain hclean).1)
  rw [← hgen] at hF
  have hg : Cautious config F 0 g := Cautious.ends_callMain (E := E) hF () g hmain
  -- the program lies in its zone, below all cells
  have hprogram : g.memory.program.size < 2 ^ 63 := by
    have hsize := hg.memory.regular.size
    have htemps : config.tempsFrom = config.programSize + config.dataSize := rfl
    omega
  obtain ⟨bodies, hbodied⟩ := exists_bodied h he hsource hmain hprogram
  have hfence : ∀ f, g.Defines f → F.functions f := by
    rintro _ ⟨row, f, hf, rfl⟩
    exact (hg.suits_of_function? hf).1
  have hsmall : ∀ f, g.Defines f → f.start < 2 ^ 63 ∧ f.returnCell < 2 ^ 63 := by
    intro f hf
    have hstart := (hg.memory.starts f (hfence f hf)).1
    have hcell := hg.memory.below _ (.inr ⟨f, hfence f hf, rfl⟩)
    have hdata := hg.memory.regular.data_le
    omega
  exact
    { small := hsmall
      shaped := hg.memory.code.shaped
      cells := fun f f' hf hf' => hg.memory.unique f f' (hfence f hf) (hfence f' hf')
      stores := fun f k i hf => hg.memory.code.stores f k i (hfence f hf)
      entries := fun k t hl => by
        rintro ⟨f, slot, hf, hcalls, rfl⟩
        exact (hg.memory.code.leads k _ hl).2 f slot _ (hfence f hf) hcalls.1
          (Instruction.writesTo_assign.2 ⟨rfl, Operand.value_direct (hsmall f hf).2⟩) rfl
      inside := fun f k c hf hpath hc => hbodied.inside hf hpath hc
      outside := fun k c hpath => hbodied.outside hpath }

end Returning

end OnePass.Derivation

namespace OnePass

open OnePass.Derivation Emission Target

/-- **Functions return to where they were called.** Take a text that is compiled without an error, and a
run of its program in which no function is called while it is active, and nothing is written
through a pointer to the return cell of one that is. Then a jump through a cell is one through the
return cell of the function that was called last and not left yet, and it leads to the slot behind
the jump of that call. A program in which no function calls itself, directly or indirectly, never
calls one that is active. -/
theorem compile_returns (c : Config) (source : String) {r : Compilation}
    (h : compile c source = .ok r) (hclean : r.hasErrors = false) (hcapacity : c.capacity < 2 ^ 63)
    (hsource : (c.preamble source).length < 2 ^ 63) :
    ∃ o g, parse c (c.preamble source) = .ok o ∧ callMain o.lastLine o.generator = .ok () g ∧
      r.code = some g.memory.listing ∧
      let p := g.memory.program
      (∀ s acts, Runs g.Defines p (Spoils g.Defines p) s acts →
        (∃ acts', Turn g.Defines p s.slot acts acts') ∧
          ∀ cell, Holds p s.slot (.jumpThrough cell) → ∃ a rest, acts = a :: rest ∧
            Holds p s.slot (.jumpThrough a.function.returnCell) ∧
              step? p s = some (s.goTo a.back)) ∧
      ((∀ f, ¬Relation.TransGen (CallsOn g.Defines p) f f) → ∀ s acts,
        Runs g.Defines p (Clobbers p) s acts → Runs g.Defines p (Spoils g.Defines p) s acts) := by
  obtain ⟨hc, o, g, ho, hmain, rfl⟩ := outcome_of_compile h
  obtain ⟨-, hsyntax, hsemantic⟩ := hasErrors_eq_false hclean
  have hreturning := returning_of_parse ho hsyntax hc hcapacity hsource hmain hsemantic
  refine ⟨o, g, ho, hmain, by simp [Outcome.conclude, hsemantic], fun s acts hr => ?_,
    fun hacyclic s acts hr => ?_⟩
  · exact hreturning.returns hr
  · exact hr.spoils_of_acyclic hreturning hacyclic

/-- Two functions, of which one calls the other twice. -/
theorem compile_returns_of_two_calls :
    let source := "def g ( x ) : return x + 1 ; ; def f ( x ) : return g ( x ) * g ( 2 ) ; ; def main ( ) : print ( f ( 3 ) ) ; ;"
    ∃ (r : Compilation) (o : Outcome) (g : Generator), compile .standard source = .ok r ∧
      r.hasErrors = false ∧ callMain o.lastLine o.generator = .ok () g ∧
      r.code = some g.memory.listing ∧
      ∀ s acts, Runs g.Defines g.memory.program (Spoils g.Defines g.memory.program) s acts →
        ∀ cell, Holds g.memory.program s.slot (.jumpThrough cell) → ∃ a rest, acts = a :: rest ∧
          step? g.memory.program s = some (s.goTo a.back) := by
  intro source
  have hrun : (compile .standard source).toOption.map (·.hasErrors) = some false := by
    rw [compile_eq, Grammar.table_eq_ok]
    decide +kernel
  obtain ⟨r, hr, hclean⟩ := exists_of_toOption_map hrun
  obtain ⟨o, g, -, hmain, hcode, hreturns, -⟩ :=
    compile_returns .standard source hr hclean (by decide) (by decide)
  refine ⟨r, o, g, hr, hclean, hmain, hcode, fun s acts hruns cell hc => ?_⟩
  obtain ⟨a, rest, hacts, -, hstep⟩ := (hreturns s acts hruns).2 cell hc
  exact ⟨a, rest, hacts, hstep⟩

end OnePass
