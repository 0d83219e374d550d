import OnePass.Proofs.Emission.Temporaries

/-!
# Actions keep generation sound

Each action takes from a sound state what it needs and leaves what those behind it need.

* `Sound.ends_perform`: one action.
-/

namespace OnePass.Emission

open Grammar (Action Item Terminal)
open Names Target

/-- How many arguments an action counts. -/
def counts (a : Action) : Nat := if a = .takeArgument then 1 else 0

/-- The text of a terminal that was read suits an action that stands behind it. -/
structure Suits (E : Setting) (last : Option Terminal) (lexeme : String) : Prop where
  name : last = some .identifier →
    E.config.keywords.contains loopKeyword = true → lexeme ≠ loopKeyword
  loop : last = some .kwWhile → E.config.keywords.contains loopKeyword = true

namespace Sound

variable {E : Setting} {bound : Nat} {g : Generator} {a : Action} {rest : List Item}
  {last : Option Terminal} {lexeme : String} {line : Nat}

/-- **Every action keeps generation sound,** takes what others left for it and leaves its own. -/
theorem ends_perform (h : Sound E 0 bound [] none g (a.takes ++ rest))
    (hb : bound + counts a ≤ 2 ^ 63 - 1) (hs : Suits E last lexeme)
    (hbehind : a.behind? = none ∨ a.behind? = last) (ht : E.Temps g (temps a g)) :
    Ends (perform a lexeme line) g fun _ g' =>
      Sound E 0 (bound + counts a) [] none g' (a.leaves ++ rest) := by
  have hname : a.behind? = some .identifier →
      E.config.keywords.contains loopKeyword = true → lexeme ≠ loopKeyword := fun hb =>
    hs.name (by
      rcases hbehind with h | h
      · rw [hb] at h; cases h
      · rw [← h, hb])
  cases a with
  | pushId => exact h.ends_readName (hname rfl)
  | pushNumber => exact ends_push.2 (h.pushValue (Operand.reads_immediate _))
  | pushTarget => exact h.ends_assignTo (hname rfl)
  | checkDefined => exact h.ends_requireCell
  | elementAddress => exact h.ends_element false ht
  | elementValue => exact h.ends_element true ht
  | listBegin =>
    simp only [perform, startList, ends_bind, ends_get, ends_push]
    exact h.pushValue (Operand.reads_immediate _)
  | listItem => exact h.ends_storeItem
  | add => exact h.ends_combine (.inl rfl) ht
  | sub => exact h.ends_combine (.inr (.inl rfl)) ht
  | mult => exact h.ends_combine (.inr (.inr (.inl rfl))) ht
  | power => exact h.ends_raise ht
  | markEq => exact ends_push.2 (h.pushRelation rfl)
  | markLt => exact ends_push.2 (h.pushRelation rfl)
  | compare => exact h.ends_relate ht
  | assign => exact h.ends_store
  | print => exact h.ends_printValue
  | global => exact h.ends_bindGlobal (hname rfl)
  | breakLoop => exact h.ends_breakLoop line
  | continueLoop => exact h.ends_continueLoop line
  | save => exact (h.relax (Nat.zero_le 1)).ends_holdBranch
  | falseJump => exact h.ends_endIf
  | falseJumpSave => exact h.ends_startElse
  | jump => exact h.ends_endElse
  | loopBegin =>
    refine h.ends_startLoop (hs.loop ?_)
    rcases hbehind with h | h
    · cases h
    · exact h.symm
  | loopEnd => exact h.ends_endLoop
  | beginCall => exact h.ends_startCall
  | takeArgument =>
    refine h.ends_countArgument ?_
    unfold Operand.maxWord
    have : counts .takeArgument = 1 := rfl
    omega
  | dispatch =>
    refine h.ends_resolveCall fun hc => ?_
    rw [temps, if_pos hc] at ht
    exact ht
  | discardResult => exact h.ends_dropResult
  | enterFunction => exact h.ends_startFunction (hname rfl)
  | param => exact h.ends_addParameter (hname rfl)
  | paramsDone => exact h.ends_publish
  | returnValue => exact h.ends_returnWith line
  | returnVoid => exact h.ends_returnNothing
  | exitFunction => exact h.ends_endFunction
  | checkOverload => exact h.ends_retireRivals line

end Sound

end OnePass.Emission
