import OnePass.Proofs.Grammar.Shape

/-!
# Layers that open and close in order

A definition opens with its name, goes on with its body once its parameters have been
read, and is over when its rivals have been looked for; a loop opens with its keyword. The
rules open and close these layers in pairs, so whatever phrase is left out, the layers
around it are as they would be with it. Likewise an action that uses a name stands behind
that name, with nothing between them but other such actions.

* `Layer`, `Action.turn`: what is open, and what an action makes of that.
* `Layer.through`: the layers behind symbols. `through_append`, `through_frame`.
* `through_body`: **a body leaves the layers of its phrase as they are.**
* `callsBehind`: how many names of calls wait behind symbols. `callsBehind_body`.
* `Advances`: what becomes of symbols before an action. `Advances.through`, `Advances.calls`.
* `behindName`, `ledBy`, `atName`, `named_body`: bodies that begin with a name and what uses it.
-/

namespace OnePass.Grammar

/-- What is open at a place of a program. -/
inductive Layer where
  | loop
  /-- The parameters of a definition are being read. -/
  | header
  | body
  /-- A definition has just ended. -/
  | ended
deriving DecidableEq

namespace Layer

/-- Statements may stand here: no parameters are being read, and no definition has just ended. -/
def steady : List Layer → Bool
  | .header :: _ | .ended :: _ => false
  | _ => true

/-- Parameters are being read. -/
def inHeader : List Layer → Bool
  | .header :: layers => steady layers
  | _ => false

end Layer

/-- What an action does to the layers. -/
inductive LayerStep where
  | stays
  | opens (l : Layer)
  /-- The innermost layer becomes another one, or is just looked at. -/
  | turns (l l' : Layer)
  | closes (l : Layer)
deriving DecidableEq

def Action.layerStep : Action → LayerStep
  | .loopBegin => .opens .loop
  | .loopEnd => .closes .loop
  | .enterFunction => .opens .header
  | .param => .turns .header .header
  | .paramsDone => .turns .header .body
  | .exitFunction => .turns .body .ended
  | .checkOverload => .closes .ended
  | _ => .stays

/-- The layers behind a step, if those before it are as it needs them. -/
def LayerStep.from? (s : LayerStep) (layers : List Layer) : Option (List Layer) :=
  match s with
  | .stays => if Layer.steady layers then some layers else none
  | .opens l => if Layer.steady layers then some (l :: layers) else none
  | .turns l l' => if layers.head? = some l then some (l' :: layers.tail) else none
  | .closes l => if layers.head? = some l then some layers.tail else none

/-- **The layers behind an action,** if those before it are as it needs them. -/
def Action.turn (a : Action) (layers : List Layer) : Option (List Layer) :=
  a.layerStep.from? layers

/-- Whether a phrase may stand within these layers. -/
def Nonterminal.fits (n : Nonterminal) (layers : List Layer) : Bool :=
  match n with
  | .parameters | .parametersRest => Layer.inHeader layers
  | _ => Layer.steady layers

/-- The innermost layer that a phrase needs. -/
def Nonterminal.layers (n : Nonterminal) : List Layer :=
  match n with
  | .parameters | .parametersRest => [.header]
  | _ => []

namespace Layer

/-- **The layers behind symbols,** if all of them find what they need. -/
def through (layers : List Layer) : List Symbol → Option (List Layer)
  | [] => some layers
  | .terminal _ :: rest => through layers rest
  | .nonterminal n :: rest => if n.fits layers then through layers rest else none
  | .action a :: rest => (a.turn layers).bind fun layers' => through layers' rest

variable {layers layers' below : List Layer} {symbols rest : List Symbol} {a : Action}
  {n : Nonterminal}

theorem through_append :
    through layers (symbols ++ rest) = (through layers symbols).bind (through · rest) := by
  induction symbols generalizing layers with
  | nil => rfl
  | cons s symbols ih =>
    cases s with
    | terminal t => exact ih
    | nonterminal n =>
      rw [List.cons_append, through, through]
      split
      · exact ih
      · rfl
    | action a =>
      rw [List.cons_append, through, through]
      cases a.turn layers with
      | none => rfl
      | some layers' => exact ih

theorem steady_append (h : steady layers = true) (hb : steady below = true) :
    steady (layers ++ below) = true := by
  cases layers with
  | nil => exact hb
  | cons l layers => cases l <;> first | rfl | cases h

theorem inHeader_append (h : inHeader layers = true) (hb : steady below = true) :
    inHeader (layers ++ below) = true := by
  unfold inHeader at h
  split at h
  · exact steady_append h hb
  · cases h

/-- The innermost layer is the same with more layers below it. -/
theorem eq_cons_of_head? {l : Layer} (h : layers.head? = some l) : layers = l :: layers.tail := by
  cases layers with
  | nil => cases h
  | cons l' layers =>
    cases h
    rfl

/-- A step does not look below the layers that it needs. -/
theorem from?_append {s : LayerStep} (h : s.from? layers = some layers')
    (hb : steady below = true) : s.from? (layers ++ below) = some (layers' ++ below) := by
  cases s with
  | stays | opens =>
    obtain ⟨hs, heq⟩ := Option.ite_none_right_eq_some.1 h
    cases heq
    exact if_pos (steady_append hs hb)
  | turns | closes =>
    obtain ⟨hl, heq⟩ := Option.ite_none_right_eq_some.1 h
    cases heq
    rw [eq_cons_of_head? hl]
    exact if_pos rfl

theorem fits_append (h : n.fits layers = true) (hb : steady below = true) :
    n.fits (layers ++ below) = true := by
  unfold Nonterminal.fits at h ⊢
  split at h
  · exact inHeader_append h hb
  · exact inHeader_append h hb
  · exact steady_append h hb

/-- Behind a definition that has just ended only its rivals are looked for. -/
theorem turn_ended (h : a.turn (.ended :: layers) = some layers') :
    a = .checkOverload ∧ layers' = layers := by
  unfold Action.turn Action.layerStep at h
  split at h <;> simp_all [LayerStep.from?, steady]

/-- Where none has just ended, one action ends one. -/
theorem ended_not_mem_turn (h : Layer.ended ∉ layers) (hturn : a.turn layers = some layers') :
    a ≠ .checkOverload ∧ if a = .exitFunction then ∃ below, layers' = .ended :: below ∧
      Layer.ended ∉ below else Layer.ended ∉ layers' := by
  have htail : Layer.ended ∉ layers.tail := fun hmem => h (List.mem_of_mem_tail hmem)
  have hhead : layers.head? ≠ some .ended := fun heq => h (List.mem_of_head? heq)
  unfold Action.turn Action.layerStep at hturn
  split at hturn <;> simp only [LayerStep.from?, Option.ite_none_right_eq_some,
    Option.some.injEq] at hturn <;> obtain ⟨hlayers, rfl⟩ := hturn <;> simp_all

/-- **Symbols do not look below the layers that they need.** -/
theorem through_frame (h : through layers symbols = some layers') (hb : steady below = true) :
    through (layers ++ below) symbols = some (layers' ++ below) := by
  induction symbols generalizing layers with
  | nil =>
    cases h
    rfl
  | cons s symbols ih =>
    cases s with
    | terminal t => exact ih h
    | nonterminal n =>
      rw [through] at h ⊢
      split at h
      · rename_i hn
        rw [if_pos (fits_append hn hb)]
        exact ih h
      · cases h
    | action a =>
      rw [through] at h ⊢
      obtain ⟨layers₁, hturn, h⟩ := Option.bind_eq_some_iff.1 h
      rw [Action.turn, from?_append hturn hb]
      exact ih h

/-- A rule opens and closes its layers in pairs. -/
theorem through_rule : ∀ p ∈ productions, through p.head.layers p.body = some p.head.layers := by
  decide

/-- **A body leaves the layers of its phrase as they are.** -/
theorem through_body {p : Production} (hp : p ∈ productions) (h : p.head.fits layers = true) :
    through layers p.body = some layers := by
  have hrule := through_rule p hp
  obtain ⟨below, rfl, hb⟩ : ∃ below, layers = p.head.layers ++ below ∧ steady below = true := by
    unfold Nonterminal.fits at h
    unfold Nonterminal.layers
    split at h
    · unfold inHeader at h
      split at h
      · exact ⟨_, rfl, h⟩
      · cases h
    · unfold inHeader at h
      split at h
      · exact ⟨_, rfl, h⟩
      · cases h
    · exact ⟨layers, rfl, h⟩
  exact through_frame hrule hb

end Layer

section Calls

/-- How many names of calls wait behind an action; a call that finds none has no number. -/
def Action.calls (a : Action) (count : Nat) : Option Nat :=
  if a = .beginCall then some (count + 1)
  else if a = .dispatch then if count = 0 then none else some (count - 1)
  else some count

/-- **How many names of calls wait behind symbols,** if every call finds its name. -/
def callsBehind (count : Nat) : List Symbol → Option Nat
  | [] => some count
  | .action a :: rest => (a.calls count).bind fun count' => callsBehind count' rest
  | _ :: rest => callsBehind count rest

variable {count count' : Nat} {symbols rest : List Symbol}

theorem callsBehind_append :
    callsBehind count (symbols ++ rest) = (callsBehind count symbols).bind (callsBehind · rest) := by
  induction symbols generalizing count with
  | nil => rfl
  | cons s symbols ih =>
    cases s with
    | terminal t => exact ih
    | nonterminal n => exact ih
    | action a =>
      rw [List.cons_append, callsBehind, callsBehind]
      cases a.calls count with
      | none => rfl
      | some count' => exact ih

/-- An action does not look at the names below those that it needs. -/
theorem Action.calls_add {a : Action} (h : a.calls count = some count') (below : Nat) :
    a.calls (count + below) = some (count' + below) := by
  unfold Action.calls at h ⊢
  split_ifs at h ⊢ <;> cases h <;> first | omega | exact congrArg some (by omega)

theorem callsBehind_add (h : callsBehind count symbols = some count') (below : Nat) :
    callsBehind (count + below) symbols = some (count' + below) := by
  induction symbols generalizing count with
  | nil =>
    cases h
    rfl
  | cons s symbols ih =>
    cases s with
    | terminal t => exact ih h
    | nonterminal n => exact ih h
    | action a =>
      obtain ⟨count₁, ha, h⟩ := Option.bind_eq_some_iff.1 h
      rw [callsBehind, a.calls_add ha]
      exact ih h

/-- In a rule every call has its own name. -/
theorem calls_rule : ∀ p ∈ productions, callsBehind 0 p.body = some 0 := by
  decide

/-- **A body leaves the names of calls as they are.** -/
theorem callsBehind_body {p : Production} (hp : p ∈ productions) :
    callsBehind count p.body = some count := by
  have h := callsBehind_add (calls_rule p hp) count
  rwa [Nat.zero_add] at h

end Calls

/-- **What becomes of symbols before an action:** one that is none is left out, or a phrase is
replaced by a body of its own. -/
inductive Advances : List Symbol → List Symbol → Prop
  | same (symbols : List Symbol) : Advances symbols symbols
  | terminal (t : Terminal) (rest : List Symbol) : Advances (.terminal t :: rest) rest
  | phrase (n : Nonterminal) (rest : List Symbol) : Advances (.nonterminal n :: rest) rest
  | expand {p : Production} (hp : p ∈ productions) (rest : List Symbol) :
    Advances (.nonterminal p.head :: rest) (p.body ++ rest)

section Advances

variable {symbols symbols' : List Symbol} {layers layers' : List Layer} {count count' : Nat}

/-- **The layers behind them stay the same.** -/
theorem Advances.through (h : Advances symbols symbols')
    (ht : Layer.through layers symbols = some layers') :
    Layer.through layers symbols' = some layers' := by
  cases h with
  | same => exact ht
  | terminal => exact ht
  | phrase n rest => exact (Option.ite_none_right_eq_some.1 ht).2
  | expand hp rest =>
    obtain ⟨hfits, hrest⟩ := Option.ite_none_right_eq_some.1 ht
    rw [Layer.through_append, Layer.through_body hp hfits]
    exact hrest

/-- **So do the names of calls.** -/
theorem Advances.calls (h : Advances symbols symbols')
    (hc : callsBehind count symbols = some count') : callsBehind count symbols' = some count' := by
  cases h with
  | same => exact hc
  | terminal => exact hc
  | phrase => exact hc
  | expand hp rest =>
    rw [callsBehind_append, callsBehind_body hp]
    exact hc

end Advances

section Names

/-- Symbols that use the name read last, or read one, and end in no other text. -/
def Symbol.usesName : Symbol → Bool
  | .terminal t => t = .identifier
  | .nonterminal _ => false
  | .action a => a.behind? = some .identifier

/-- Symbols that need no name right before them. -/
def Symbol.nameless : Symbol → Bool
  | .terminal _ => true
  | .nonterminal n => n.behind? ≠ some .identifier
  | .action a => a.behind? ≠ some .identifier

/-- **Symbols behind a name:** first those that use it, perhaps a phrase that does, and then none. -/
def behindName : List Symbol → Bool
  | [] => true
  | s :: rest => (s.usesName && behindName rest) || rest.all Symbol.nameless

/-- The terminals that stand before a name, and the name itself. -/
def Terminal.beforeName (t : Terminal) : Bool :=
  t = .identifier ∨ t = .comma ∨ t = .kwGlobal ∨ t = .kwDef

/-- The action that uses the name behind a word. -/
def Terminal.leads? : Terminal → Option Action
  | .comma => some .param
  | .kwGlobal => some .global
  | .kwDef => some .enterFunction
  | _ => none

/-- Symbols that need no name right before them, but for the action that a word leads to. -/
def Symbol.ledBy (t : Terminal) : Symbol → Bool
  | .terminal _ => true
  | .nonterminal n => n.behind? ≠ some .identifier
  | .action a => a.behind? = some .identifier → t.leads? = some a

/-- Symbols that begin with a terminal before a name, or use none. -/
def atName : List Symbol → Bool
  | .terminal t :: rest =>
    (t.beforeName && (t = .identifier || rest.all (Symbol.ledBy t)) && behindName rest) ||
      rest.all Symbol.nameless
  | symbols => symbols.all Symbol.nameless

/-- **A body uses a name where its phrase does,** and else only one that it begins with. -/
theorem named_body : ∀ p ∈ productions,
    if p.head.behind? = some .identifier then behindName p.body = true else atName p.body = true := by
  decide

end Names

end OnePass.Grammar
