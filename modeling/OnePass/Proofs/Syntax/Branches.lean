import OnePass.Proofs.Syntax.Compiling

/-!
# Branches and loops are where they should be

The text of an accepted program is a block, and the block lies in the program: conditions
jump behind what they guard, loops jump back, and breaks and continues go to the innermost
loop of their own body. Those that stand in no loop are errors, one for each.

* `branches_of_parse`: how the block of a text lies in its program.
-/

namespace OnePass.Derivation

open Emission Names Target Syntax
open Grammar (Mark)
open Machine

/-- A token that becomes the next one is no error. -/
theorem errors_advance (m : Machine) : m.advance.generator.errors = m.generator.errors := by
  unfold Machine.advance
  split <;> rfl

/-- No error is noted before a text is derived. -/
theorem strays_begun (config : Config) (source : String) :
    (begun config source).generator.strays = [] := by
  rw [Generator.strays, begun, start, errors_advance]
  rfl

/-- **The branches and loops of an accepted text.** Its tokens spell a block, whose statements lie in
the program as `Statement.Laid` says, whatever is put behind the program. The breaks and continues
that stand in no loop of their body are reported in order, each once. A text and a program are held
in memory, so that both lengths are words. -/
theorem branches_of_parse {config : Config} {source : String} {o : Outcome} {p : Program}
    (h : parse config source = .ok o) (he : o.syntaxErrors = []) (hsource : source.length < 2 ^ 63)
    (hp : Extends (fun _ => True) o.generator.memory.program p) (hsize : p.size < 2 ^ 63) :
    ∃ (b : Block) (tr : Trace (.reserving config.keywords) (blockMarks b)) (bodies : List Body),
      (∀ s ∈ b, s.Graded) ∧ Mark.Spelled (blockMarks b) o.scan.tokens ∧
        tr.state 0 = (begun config source).generator ∧
        tr.state (blockMarks b).length = o.generator ∧
        blockLaid tr p b none none 0 (blockMarks b).length bodies ∧
        o.generator.strays = blockStrays b false := by
  obtain ⟨b, tr, bodies, hgraded, hs, -, hstart, hend, hlaid, hpasses⟩ :=
    exists_laid h he hsource hp hsize
  refine ⟨b, tr, bodies, hgraded, hs, hstart, hend, hlaid, ?_⟩
  rw [hpasses.strays, strays_begun, List.nil_append]

theorem branches_nested :
    let source := "while ( x < 3 ) if x == 1 : break ; else : def f ( ) : continue ; ; ; continue ; ; break ;"
    ∃ o, parse .standard source = .ok o ∧ o.syntaxErrors = [] ∧
      o.generator.strays = [.continueOutsideLoop, .breakOutsideLoop] ∧
      ∃ (b : Block) (tr : Trace (.reserving Config.standard.keywords) (blockMarks b))
        (bodies : List Body), Mark.Spelled (blockMarks b) o.scan.tokens ∧
          blockLaid tr o.generator.memory.program b none none 0 (blockMarks b).length bodies ∧
          o.generator.strays = blockStrays b false := by
  intro source
  have h : (parse .standard source).toOption.map (fun o =>
      (o.syntaxErrors, o.generator.strays, o.generator.memory.program.size)) =
        some ([], [.continueOutsideLoop, .breakOutsideLoop], 11) := by
    rw [parse_eq, Grammar.table_eq_ok]
    decide +kernel
  cases ho : parse .standard source with
  | error e =>
    rw [ho] at h
    cases h
  | ok o =>
    rw [ho] at h
    simp only [Except.toOption, Option.map_some, Option.some.injEq, Prod.mk.injEq] at h
    obtain ⟨herrors, hstrays, hsize⟩ := h
    obtain ⟨b, tr, bodies, -, hs, -, -, hlaid, hcount⟩ :=
      branches_of_parse ho herrors (by decide) (.refl _ _) (by rw [hsize]; decide)
    exact ⟨o, rfl, herrors, hstrays, b, tr, bodies, hs, hlaid, hcount⟩

end OnePass.Derivation
