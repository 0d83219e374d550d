import OnePass.Proofs.Derivation.Trace
import OnePass.Proofs.Emission.Unfailing

/-!
# Where the goals of a derivation stand

A repaired error may give up any goal, but goals only go from the top and come as the bodies
of productions. So a definition begins right behind its keyword and the name after it, and
until its parameters are read there is nothing else to do.

* `Goal.inHeader`, `Goal.outside`: goals between the name of a function and its body, and
  goals that neither begin nor end what stands there.
* `Place`: where the goals stand. `Place.expand`, `Place.act`, …: what moves make of that.
* `Secured`: a machine that no move fails in. `secured_move`: moves lead to such a machine.
-/

namespace OnePass.Derivation

open Emission Names
open Grammar (Action Nonterminal Production Table Terminal productions)
open Lexical (Token)
open Machine

/-- Goals between the name of a function and the end of its parameters. -/
def Goal.inHeader : Goal → Bool
  | .leaf .. | .phrase .parameters _ | .phrase .parametersRest _ | .act .param => true
  | _ => false

/-- Goals that neither begin a definition nor end its parameters. -/
def Goal.outside : Goal → Bool
  | .act .enterFunction | .act .paramsDone => false
  | _ => true

/-- Goals of which the first are the rest of a header. -/
def Header (goals : List Goal) : Prop :=
  ∃ front rest, goals = front ++ .act .paramsDone :: rest ∧
    (∀ goal ∈ front, goal.inHeader = true) ∧ ∀ goal ∈ rest, goal.outside = true

/-- **Where the goals stand,** before a token and behind a lexeme. With `header`, the parameters of
a definition are being read. -/
inductive Place (keywords : List String) (next : Token) (last : String) :
    Bool → List Goal → Prop
  | over (header : Bool) : Place keywords next last header []
  | outside {goals : List Goal} (h : ∀ goal ∈ goals, goal.outside = true) :
    Place keywords next last false goals
  | keyword {n n' : Nat} {goals : List Goal} (hn : Terminal.ofToken? next = some .kwDef)
      (h : Header goals) :
    Place keywords next last false
      (.leaf .kwDef n :: .leaf .identifier n' :: .act .enterFunction :: goals)
  | name {n : Nat} {goals : List Goal} (hl : last ≠ loopKeyword) (h : Header goals) :
    Place keywords next last false (.leaf .identifier n :: .act .enterFunction :: goals)
  | enter {goals : List Goal} (hl : keywords.contains loopKeyword = true → last ≠ loopKeyword)
      (h : Header goals) : Place keywords next last false (.act .enterFunction :: goals)
  | header {goals : List Goal} (h : Header goals) : Place keywords next last true goals

section Bodies

variable {p : Production} {goal : Goal} {k : Nat}

/-- What the goals of a body are like follows from its symbols. -/
theorem of_mem_goalsOf {q : Goal → Bool} {body : List Grammar.Symbol}
    (ht : ∀ t node, Grammar.Symbol.terminal t ∈ body → q (.leaf t node) = true)
    (hn : ∀ n node, Grammar.Symbol.nonterminal n ∈ body → q (.phrase n node) = true)
    (ha : ∀ a, Grammar.Symbol.action a ∈ body → q (.act a) = true) (h : goal ∈ goalsOf k body) :
    q goal = true := by
  induction body generalizing k with
  | nil => exact absurd h List.not_mem_nil
  | cons s body ih =>
    have ih' : ∀ {k}, goal ∈ goalsOf k body → q goal = true := ih
      (fun t node hs => ht t node (List.mem_cons_of_mem _ hs))
      (fun n node hs => hn n node (List.mem_cons_of_mem _ hs))
      fun a hs => ha a (List.mem_cons_of_mem _ hs)
    cases s with
    | terminal t =>
      rcases List.mem_cons.1 h with rfl | h
      · exact ht t k List.mem_cons_self
      · exact ih' h
    | nonterminal n =>
      rcases List.mem_cons.1 h with rfl | h
      · exact hn n k List.mem_cons_self
      · exact ih' h
    | action a =>
      rcases List.mem_cons.1 h with rfl | h
      · exact ha a List.mem_cons_self
      · exact ih' h

/-- Only the rule of definitions begins one or ends its parameters. -/
theorem outside_body : ∀ p ∈ productions, p.head ≠ .functionDefinition →
    ∀ a, Grammar.Symbol.action a ∈ p.body → (Goal.act a).outside = true := by
  have h : ∀ p ∈ productions, p.head ≠ .functionDefinition →
      Grammar.Symbol.action .enterFunction ∉ p.body ∧ Grammar.Symbol.action .paramsDone ∉ p.body := by decide
  intro p hp hhead a ha
  obtain ⟨henter, hdone⟩ := h p hp hhead
  cases a with
  | enterFunction => exact absurd ha henter
  | paramsDone => exact absurd ha hdone
  | _ => rfl

/-- The body of a definition is that of its rule. -/
theorem body_functionDefinition : ∀ p ∈ productions, p.head = .functionDefinition →
    p.body = [.terminal .kwDef, .terminal .identifier, .action .enterFunction,
      .terminal .leftParen, .nonterminal .parameters, .terminal .rightParen, .action .paramsDone,
      .terminal .colon, .nonterminal .statements, .action .exitFunction,
      .action .checkOverload] := by
  decide

/-- Parameters are made of names, commas and further parameters. -/
theorem inHeader_body : ∀ p ∈ productions, p.head = .parameters ∨ p.head = .parametersRest →
    (∀ n, Grammar.Symbol.nonterminal n ∈ p.body → n = .parametersRest) ∧
      ∀ a, Grammar.Symbol.action a ∈ p.body → a = .param := by
  have h : ∀ p ∈ productions, p.head = .parameters ∨ p.head = .parametersRest →
      ∀ s ∈ p.body, s = .terminal .identifier ∨ s = .terminal .comma ∨ s = .action .param ∨
        s = .nonterminal .parametersRest := by decide
  intro p hp hhead
  constructor
  · intro n hn
    simpa using h p hp hhead _ hn
  · intro a ha
    simpa using h p hp hhead _ ha

/-- A body with the actions of a loop begins with its keyword. -/
theorem body_iteration : ∀ p ∈ productions,
    Grammar.Symbol.action .loopBegin ∈ p.body ∨ Grammar.Symbol.action .loopEnd ∈ p.body →
      p.body.head? = some (.terminal .kwWhile) := by
  decide

/-- A body that begins with a terminal is predicted on that only. -/
theorem ofToken?_of_predicted? {table : Table} {m : Machine} (htable : Grammar.table = .ok table)
    {n : Nonterminal} {body : List Grammar.Symbol} (h : m.predicted? table n = some body) {t : Terminal}
    (ht : body.head? = some (.terminal t)) : Terminal.ofToken? m.lookahead = some t := by
  obtain ⟨u, p, hu, -, -, rfl, hla⟩ := lookaheads_of_predicted? htable h
  cases hbody : p.body with
  | nil =>
    rw [hbody] at ht
    cases ht
  | cons s rest =>
    rw [hbody, List.head?_cons, Option.some.injEq] at ht
    subst ht
    rw [hbody, Grammar.Facts.lookaheads, Grammar.TerminalSet.mem_union, Grammar.Facts.first,
      Grammar.TerminalSet.mem_singleton, Grammar.TerminalSet.mem_onlyIf] at hla
    rcases hla with rfl | ⟨hc, -⟩
    · exact hu
    · simp [Grammar.Facts.nullable] at hc

end Bodies

section Place

variable {keywords : List String} {next next' : Token} {last last' : String} {header : Bool}
  {goal : Goal} {rest : List Goal} {table : Table} {m : Machine}

/-- Of a header's goals the first is one of a header, or the parameters have been read. -/
theorem Header.cases (h : Header (goal :: rest)) :
    (goal.inHeader = true ∧ Header rest) ∨
      (goal = .act .paramsDone ∧ ∀ g ∈ rest, g.outside = true) := by
  obtain ⟨front, rest', heq, hfront, hrest⟩ := h
  cases front with
  | nil =>
    obtain ⟨rfl, rfl⟩ := List.cons.inj heq
    exact .inr ⟨rfl, hrest⟩
  | cons g front =>
    obtain ⟨rfl, rfl⟩ := List.cons.inj heq
    obtain ⟨hg, hfront⟩ := List.forall_mem_cons.1 hfront
    exact .inl ⟨hg, front, rest', rfl, hfront, hrest⟩

theorem Header.append {front : List Goal} (h : Header rest)
    (hfront : ∀ g ∈ front, g.inHeader = true) : Header (front ++ rest) := by
  obtain ⟨front', rest', rfl, hfront', hrest⟩ := h
  refine ⟨front ++ front', rest', (List.append_assoc _ _ _).symm, fun g hg => ?_, hrest⟩
  exact (List.mem_append.1 hg).elim (hfront g) (hfront' g)

/-- **A token is matched.** The text of a definition's name is that of a name, or its keyword. -/
theorem Place.shift {t : Terminal} {node : Nat} {token : Token}
    (h : Place keywords next last header (.leaf t node :: rest))
    (ht : Terminal.ofToken? next = some t)
    (hname : t = .identifier → keywords.contains loopKeyword = true → next.lexeme ≠ loopKeyword)
    (hdef : t = .kwDef → next.lexeme ≠ loopKeyword) :
    Place keywords token next.lexeme header rest := by
  cases h with
  | outside h => exact .outside fun g hg => h g (List.mem_cons_of_mem _ hg)
  | keyword _ h => exact .name (hdef rfl) h
  | name _ h => exact .enter (hname rfl) h
  | header h =>
    rcases h.cases with ⟨-, h⟩ | ⟨hc, -⟩
    · exact .header h
    · cases hc

/-- **A goal is given up.** The keyword of a definition never is, as it stands there. -/
theorem Place.giveUp (h : Place keywords next last header (goal :: rest))
    (hgoal : (∃ t node, goal = .leaf t node ∧ Terminal.ofToken? next ≠ some t) ∨
      ∃ n node, goal = .phrase n node) : Place keywords next last header rest := by
  cases h with
  | outside h => exact .outside fun g hg => h g (List.mem_cons_of_mem _ hg)
  | keyword hn h =>
    rcases hgoal with ⟨t, node, heq, ht⟩ | ⟨n, node, heq⟩
    · cases heq
      exact absurd hn ht
    · cases heq
  | name hl h => exact .enter (fun _ => hl) h
  | enter hl h => rcases hgoal with ⟨t, node, heq, -⟩ | ⟨n, node, heq⟩ <;> cases heq
  | header h =>
    rcases h.cases with ⟨-, h⟩ | ⟨hc, -⟩
    · exact .header h
    · rcases hgoal with ⟨t, node, heq, -⟩ | ⟨n, node, heq⟩ <;> rw [hc] at heq <;> cases heq

/-- **The end of the text is met.** It is no goal of a header. -/
theorem Place.close (h : Place keywords next last header (.textEnd :: rest)) :
    Place keywords next last header rest := by
  cases h with
  | outside h => exact .outside fun g hg => h g (List.mem_cons_of_mem _ hg)
  | header h => rcases h.cases with ⟨hc, -⟩ | ⟨hc, -⟩ <;> cases hc

/-- **A token is skipped** before a phrase or the end of the text. -/
theorem Place.skip (h : Place keywords next last header (goal :: rest))
    (hgoal : goal = .textEnd ∨ ∃ n node, goal = .phrase n node) :
    Place keywords next' last header (goal :: rest) := by
  cases h with
  | outside h => exact .outside h
  | keyword | name | enter => rcases hgoal with heq | ⟨n, node, heq⟩ <;> cases heq
  | header h => exact .header h

/-- **A phrase is replaced by a body.** A definition begins with its keyword. -/
theorem Place.expand (htable : Grammar.table = .ok table) {n : Nonterminal} {node k : Nat}
    {body : List Grammar.Symbol} (h : Place keywords m.lookahead last header (.phrase n node :: rest))
    (hb : m.predicted? table n = some body) :
    Place keywords m.lookahead last header (goalsOf k body ++ rest) := by
  obtain ⟨t, p, ht, hp, rfl, rfl, -⟩ := lookaheads_of_predicted? htable hb
  cases h with
  | outside h =>
    have hrest := (List.forall_mem_cons.1 h).2
    by_cases hhead : p.head = .functionDefinition
    · have hbody := body_functionDefinition p hp hhead
      have hdef := ofToken?_of_predicted? htable hb (t := .kwDef) (by rw [hbody]; rfl)
      rw [hbody]
      refine .keyword hdef ⟨[_, _, _], _, rfl, ?_, ?_⟩
      · simp [Goal.inHeader]
      · intro g hg
        rcases List.mem_append.1 hg with hg | hg
        · have hbelow : g ∈ goalsOf _ [.terminal .colon, .nonterminal .statements,
              .action .exitFunction, .action .checkOverload] := hg
          refine of_mem_goalsOf (fun _ _ _ => rfl) (fun _ _ _ => rfl) (fun a ha => ?_) hbelow
          obtain rfl | rfl : a = .exitFunction ∨ a = .checkOverload := by simpa using ha
          · rfl
          · rfl
        · exact hrest g hg
    · refine .outside fun g hg => ?_
      rcases List.mem_append.1 hg with hg | hg
      · exact of_mem_goalsOf (fun _ _ _ => rfl) (fun _ _ _ => rfl) (outside_body p hp hhead) hg
      · exact hrest g hg
  | header h =>
    rcases h.cases with ⟨hin, h⟩ | ⟨hc, -⟩
    · have hhead : p.head = .parameters ∨ p.head = .parametersRest := by
        unfold Goal.inHeader at hin
        split at hin <;> simp_all
      obtain ⟨hphrases, hactions⟩ := inHeader_body p hp hhead
      refine .header (h.append fun g hg => ?_)
      refine of_mem_goalsOf (fun _ _ _ => rfl) (fun n _ hn => ?_) (fun a ha => ?_) hg
      · rw [hphrases n hn]
        rfl
      · rw [hactions a ha]
        rfl
    · cases hc

/-- **An action is performed.** While parameters are read it adds one or is the last, and a
definition has a name that is not the loop keyword. -/
theorem Place.act {a : Action} (h : Place keywords next last header (.act a :: rest)) :
    (header = true → a = .param ∨ a = .paramsDone) ∧
      (a = .enterFunction → keywords.contains loopKeyword = true → last ≠ loopKeyword) ∧
      Place keywords next last (heading header a) rest := by
  cases h with
  | outside h =>
    obtain ⟨ha, hrest⟩ := List.forall_mem_cons.1 h
    have hne : a ≠ .enterFunction := by
      rintro rfl
      cases ha
    have hstays : heading false a = false := by
      cases a with
      | enterFunction => exact absurd rfl hne
      | _ => rfl
    refine ⟨nofun, fun hc => absurd hc hne, ?_⟩
    rw [hstays]
    exact .outside hrest
  | enter hl h => exact ⟨nofun, fun _ => hl, .header h⟩
  | header h =>
    rcases h.cases with ⟨hin, hheader⟩ | ⟨hc, hrest⟩
    · have ha : a = .param := by
        unfold Goal.inHeader at hin
        split at hin <;> simp_all
      subst ha
      exact ⟨fun _ => .inl rfl, nofun, .header hheader⟩
    · cases hc
      exact ⟨fun _ => .inr rfl, nofun, .outside hrest⟩

end Place

end OnePass.Derivation
