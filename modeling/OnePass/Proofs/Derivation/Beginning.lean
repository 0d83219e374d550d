import OnePass.Proofs.Derivation.Growth
import OnePass.Proofs.Lexical.Tokens

/-!
# Where a derivation begins

The machine that a text begins with: its tokens are those of the scan, a program is to come and
then the end of the text, and the tree is its root.

* `orderly_begun`, `numbered_begun`, `awaits_begun`: the invariants of runs hold there.
* `pending_begun`, `goals_begun`, `tree_begun`, `errors_begun`: what is in it.
* `Comes`: the machines that a derivation without repairs comes to.
-/

namespace OnePass.Derivation

open Grammar (Mark)
open Machine

variable {config : Config} {source : String}

theorem isEndOfInput_of_mem_scan :
    ∀ t ∈ (Lexical.scan config.keywords source).tokens, t.isEndOfInput = false :=
  fun _ h => (Lexical.fits_of_mem_scan h).notEnd

theorem orderly_begun (config : Config) (source : String) : (begun config source).Orderly :=
  orderly_start config isEndOfInput_of_mem_scan rfl

theorem pending_begun (config : Config) (source : String) :
    (begun config source).pending = (Lexical.scan config.keywords source).tokens :=
  pending_start config isEndOfInput_of_mem_scan rfl

theorem goals_begun (config : Config) (source : String) :
    (begun config source).goals = [.phrase Grammar.start Tree.root, .textEnd] :=
  goals_advance

theorem awaits_begun (config : Config) (source : String) :
    (begun config source).Awaits [.phrase Grammar.start Tree.root] :=
  ⟨goals_begun config source, by simp⟩

theorem tree_begun (config : Config) (source : String) :
    (begun config source).tree = .ofLabel Grammar.start.name :=
  tree_advance

theorem errors_begun (config : Config) (source : String) : (begun config source).errors = #[] :=
  errors_advance

theorem numbered_begun (config : Config) (source : String) : (begun config source).Numbered := by
  refine ⟨?_, ?_⟩
  · rw [tree_begun]
    simp [Tree.forest, Tree.ofLabel, Forest.ids, Tree.root]
  · rw [goals_begun, tree_begun]
    simp [Goal.node?, Tree.ofLabel, Tree.root]

/-- **A machine that the derivation of a text comes to,** behind these marks. -/
def Comes (config : Config) (source : String) (w : List Mark) (m : Machine) : Prop :=
  ∃ table, Grammar.table = .ok table ∧ Along table w (begun config source) m

end OnePass.Derivation
