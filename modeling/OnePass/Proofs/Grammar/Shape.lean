import OnePass.Grammar.Language
import OnePass.Proofs.Grammar.Derives

/-!
# What actions leave for one another

Between the actions of a text lie operands on a stack, open definitions and open loops,
and each action takes some of them from the top and leaves others there. The rules fit
together: the body of every production takes and leaves what its head does.

* `Item`: what actions leave. `Action.takes`, `Action.leaves`, `Action.behind?`.
* `Shaped`: marks whose actions find what they take.
* `shaped_of_derives`: the marks of a whole text take nothing and leave nothing.
* `counted_le_of_derives`: they count no more arguments than they read terminals.
-/

namespace OnePass.Grammar

/-- What an action leaves for those that follow. -/
inductive Item where
  | value
  /-- A place that a value is to be stored in. -/
  | target
  /-- The operator of a relation. -/
  | relation
  /-- The outcome of a relation. -/
  | condition
  /-- A condition with the slot that is held behind it. -/
  | branch
  /-- The slot held between two branches. -/
  | otherwise
  /-- A call with the arguments so far. -/
  | call
  | loop
  /-- A definition whose parameters are being read. -/
  | header
  | body
deriving DecidableEq

/-- What an action takes, the top first. -/
def Action.takes : Action → List Item
  | .elementAddress | .elementValue | .add | .sub | .mult | .power => [.value, .value]
  | .listItem | .print | .discardResult | .returnValue => [.value]
  | .compare => [.value, .relation, .value]
  | .assign => [.value, .target]
  | .save => [.condition]
  | .falseJump | .falseJumpSave => [.branch]
  | .jump => [.otherwise]
  | .loopEnd => [.branch, .loop]
  | .takeArgument => [.value, .call]
  | .dispatch => [.call]
  | .param | .paramsDone => [.header]
  | .exitFunction => [.body]
  | _ => []

/-- What an action leaves, the top first. -/
def Action.leaves : Action → List Item
  | .pushId | .pushNumber | .elementValue | .listBegin | .add | .sub | .mult | .power | .dispatch =>
    [.value]
  | .pushTarget | .elementAddress => [.target]
  | .markEq | .markLt => [.relation]
  | .compare => [.condition]
  | .save => [.branch]
  | .falseJumpSave => [.otherwise]
  | .loopBegin => [.loop]
  | .beginCall | .takeArgument => [.call]
  | .enterFunction | .param => [.header]
  | .paramsDone => [.body]
  | _ => []

/-- The terminal that stands right before an action that uses its text. -/
def Action.behind? : Action → Option Terminal
  | .pushId | .pushTarget | .checkDefined | .beginCall | .enterFunction | .param | .global =>
    some .identifier
  | .pushNumber => some .number
  | .loopBegin => some .kwWhile
  | _ => none

/-- What the actions of a phrase take that others have left. -/
def Nonterminal.takes : Nonterminal → List Item
  | .parameters | .parametersRest => [.header]
  | .elseBlock => [.branch]
  | .expressionRest | .termRest | .power | .index => [.value]
  | .arguments | .argumentsRest => [.call]
  | _ => []

/-- What the actions of a phrase leave. -/
def Nonterminal.leaves : Nonterminal → List Item
  | .parameters | .parametersRest => [.header]
  | .relation => [.condition]
  | .relationalOperator => [.relation]
  | .assigned | .expression | .expressionRest | .term | .termRest | .factor | .power | .atom
  | .atomRest | .index => [.value]
  | .arguments | .argumentsRest => [.call]
  | _ => []

/-- The terminal that stands right before a phrase that uses its text. -/
def Nonterminal.behind? : Nonterminal → Option Terminal
  | .afterName | .atomRest => some .identifier
  | _ => none

/-- What lies ready between two marks, and the terminal read last, if that is known. -/
structure Shape where
  last : Option Terminal
  items : List Item
deriving DecidableEq

/-- **Marks whose actions find what they take,** behind the terminals they need. -/
inductive Shaped : Shape → List Mark → Shape → Prop
  | nil (s : Shape) : Shaped s [] s
  | read {t : Terminal} (x : String) {last : Option Terminal} {items : List Item} {w : List Mark}
      {s : Shape} (h : Shaped ⟨some t, items⟩ w s) : Shaped ⟨last, items⟩ (.read t x :: w) s
  | act {a : Action} {last : Option Terminal} {rest : List Item} {w : List Mark} {s : Shape}
      (hb : a.behind? = none ∨ a.behind? = last) (h : Shaped ⟨last, a.leaves ++ rest⟩ w s) :
      Shaped ⟨last, a.takes ++ rest⟩ (.act a :: w) s

theorem Shaped.append {s s' s'' : Shape} {u w : List Mark} (hu : Shaped s u s')
    (hw : Shaped s' w s'') : Shaped s (u ++ w) s'' := by
  induction hu with
  | nil => exact hw
  | read x _ ih => exact .read x (ih hw)
  | act hb _ ih => exact .act hb (ih hw)

theorem Shaped.of_append {s s'' : Shape} {u w : List Mark} (h : Shaped s (u ++ w) s'') :
    ∃ s', Shaped s u s' ∧ Shaped s' w s'' := by
  induction u generalizing s with
  | nil => exact ⟨s, .nil s, h⟩
  | cons k u ih =>
    cases h with
    | read x h =>
      obtain ⟨s', h1, h2⟩ := ih h
      exact ⟨s', .read x h1, h2⟩
    | act hb h =>
      obtain ⟨s', h1, h2⟩ := ih h
      exact ⟨s', .act hb h1, h2⟩

/-- What is left when something is taken from the top. -/
def strip (taken : List Item) (items : List Item) : Option (List Item) :=
  if taken.isPrefixOf items then some (items.drop taken.length) else none

/-- A string of symbols between two shapes, as far as it finds what it takes. -/
def Shape.through (s : Shape) : List Symbol → Option Shape
  | [] => some s
  | .terminal t :: rest => Shape.through ⟨some t, s.items⟩ rest
  | .action a :: rest =>
    if a.behind? = none ∨ a.behind? = s.last then
      (strip a.takes s.items).bind fun items => Shape.through ⟨s.last, a.leaves ++ items⟩ rest
    else none
  | .nonterminal n :: rest =>
    if n.behind? = none ∨ n.behind? = s.last then
      (strip n.takes s.items).bind fun items => Shape.through ⟨none, n.leaves ++ items⟩ rest
    else none

/-- **The rules fit together:** every body takes and leaves what its head does. -/
theorem through_body : ∀ p ∈ productions,
    ((Shape.through ⟨p.head.behind?, p.head.takes⟩ p.body).map Shape.items) =
      some p.head.leaves := by
  decide

theorem strip_eq_some {taken items rest : List Item} (h : strip taken items = some rest) :
    items = taken ++ rest := by
  unfold strip at h
  split at h
  · rename_i hp
    cases h
    obtain ⟨t, rfl⟩ := List.isPrefixOf_iff_prefix.1 hp
    rw [List.drop_left]
  · cases h

/-- What is derived takes and leaves what its symbols do, whatever lies below. -/
theorem shaped_through {symbols : List Symbol} {w : List Mark} (h : Derives productions symbols w)
    {s s' : Shape} (hs : s.through symbols = some s') {last : Option Terminal}
    (hlast : s.last = none ∨ s.last = last) (below : List Item) :
    ∃ last', (s'.last = none ∨ s'.last = last') ∧
      Shaped ⟨last, s.items ++ below⟩ w ⟨last', s'.items ++ below⟩ := by
  have behind : ∀ {s : Shape} {b last : Option Terminal}, b = none ∨ b = s.last →
      s.last = none ∨ s.last = last → b = none ∨ b = last := by
    rintro s b last (rfl | rfl) h
    · exact .inl rfl
    · exact h
  induction h generalizing s s' last below with
  | nil =>
    cases hs
    exact ⟨last, hlast, .nil _⟩
  | @terminal t x rest w _ ih =>
    obtain ⟨last', h1, h2⟩ := ih (s := ⟨some t, s.items⟩) hs (.inr rfl) below
    exact ⟨last', h1, .read x h2⟩
  | @action a rest w _ ih =>
    unfold Shape.through at hs
    split at hs
    · rename_i hb
      obtain ⟨items, hitems, hs⟩ := Option.bind_eq_some_iff.1 hs
      obtain ⟨last', h1, h2⟩ := ih (s := ⟨s.last, a.leaves ++ items⟩) hs hlast below
      refine ⟨last', h1, ?_⟩
      rw [strip_eq_some hitems, List.append_assoc]
      rw [List.append_assoc] at h2
      exact .act (behind hb hlast) h2
    · cases hs
  | @phrase p hp rest u v _ _ ihu ih =>
    unfold Shape.through at hs
    split at hs
    · rename_i hb
      obtain ⟨items, hitems, hs⟩ := Option.bind_eq_some_iff.1 hs
      obtain ⟨after, hafter, hleaves⟩ := Option.map_eq_some_iff.1 (through_body p hp)
      obtain ⟨lastu, -, hu⟩ := ihu (s := ⟨p.head.behind?, p.head.takes⟩) hafter
        (behind hb hlast) (items ++ below)
      obtain ⟨last', h1, h2⟩ := ih (s := ⟨none, p.head.leaves ++ items⟩) hs (.inl rfl) below
      refine ⟨last', h1, ?_⟩
      rw [hleaves] at hu
      rw [strip_eq_some hitems, List.append_assoc]
      rw [List.append_assoc] at h2
      exact hu.append h2
    · cases hs

/-- **The marks of a whole text** take nothing and leave nothing. -/
theorem shaped_of_derives {w : List Mark}
    (h : Derives productions [.nonterminal Grammar.start] w) :
    ∃ last, Shaped ⟨none, []⟩ w ⟨last, []⟩ := by
  have hs : Shape.through ⟨none, []⟩ [.nonterminal Grammar.start] = some ⟨none, []⟩ := rfl
  obtain ⟨last, -, h⟩ := shaped_through h hs (.inl rfl) []
  exact ⟨last, h⟩

section Arguments

/-- How many arguments are counted. -/
def counted (w : List Mark) : Nat := w.countP (· = .act .takeArgument)

/-- How many terminals a symbol has at least, one for each of its arguments apart. -/
def Symbol.spare : Symbol → Nat
  | .terminal _ => 1
  | .nonterminal .expression | .nonterminal .term | .nonterminal .factor | .nonterminal .atom => 1
  | _ => 0

/-- In every rule each argument has a terminal of its own. -/
theorem spare_body : ∀ p ∈ productions,
    (Symbol.nonterminal p.head).spare + p.body.countP (· = .action .takeArgument) ≤
      (p.body.map Symbol.spare).sum := by
  decide

theorem spare_add_counted_le {symbols : List Symbol} {w : List Mark}
    (h : Derives productions symbols w) : (symbols.map Symbol.spare).sum + counted w ≤
      (Mark.readings w).length + symbols.countP (· = .action .takeArgument) := by
  induction h with
  | nil => exact Nat.le_refl _
  | @terminal t x rest w _ ih =>
    simp only [counted, List.map_cons, List.sum_cons, List.countP_cons, Mark.readings_read,
      List.length_cons, Symbol.spare] at ih ⊢
    simp only [reduceCtorEq, decide_false, Bool.false_eq_true, if_false]
    omega
  | @action a rest w _ ih =>
    simp only [counted, List.map_cons, List.sum_cons, List.countP_cons, Mark.readings_act,
      Symbol.spare, Mark.act.injEq, Symbol.action.injEq] at ih ⊢
    omega
  | @phrase p hp rest u v _ _ ihu ih =>
    have hbody := spare_body p hp
    simp only [counted, List.map_cons, List.sum_cons, List.countP_cons, List.countP_append,
      Mark.readings_append, List.length_append, reduceCtorEq, decide_false, Bool.false_eq_true,
      if_false] at ihu ih ⊢
    omega

/-- **There are no more arguments than tokens.** -/
theorem counted_le_of_derives {w : List Mark}
    (h : Derives productions [.nonterminal Grammar.start] w) :
    counted w ≤ (Mark.readings w).length :=
  Nat.le_trans (Nat.le_add_left _ _) (spare_add_counted_le h)

end Arguments

end OnePass.Grammar
