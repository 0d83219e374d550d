import OnePass.Proofs.Derivation.Acceptance
import OnePass.Proofs.Lexical.Pulls

/-!
# The course of a derivation

Every token of a text is matched or skipped, and for each that is skipped there is an error.
The text ends inside a phrase at most once, and then no goal is left.

* `Turn`, `turn_of_step`: what a step does, with what becomes of the next token.
* `Course`, `course_of_run`: a run, with what has become of its tokens.
* `Course.tokens`: no token is lost. `Course.illegal`: an error for each that is skipped.
* `Course.ended`: the error of a text that ends too early is the last.
-/

namespace OnePass

/-- An error for a token that is skipped. -/
def SyntaxError.isIllegal (e : SyntaxError) : Bool :=
  match e.fault with
  | .illegal _ => true
  | _ => false

namespace Derivation

open Grammar
open Lexical (Token)
open Machine

/-- **What becomes of a token.** -/
inductive Fate where
  | matched
  | skipped
deriving DecidableEq

/-- The tokens with a fate, in their order. -/
def tokensOf (fate : Fate) (fates : List (Fate × Token)) : List Token :=
  (fates.filter (·.1 = fate)).map Prod.snd

/-- There is no other fate. -/
theorem length_eq_add (fates : List (Fate × Token)) :
    fates.length = (tokensOf .matched fates).length + (tokensOf .skipped fates).length := by
  induction fates with
  | nil => rfl
  | cons p fates ih =>
    obtain ⟨fate, t⟩ := p
    cases fate <;> simp [tokensOf] at ih ⊢ <;> omega

/-- The error for a token that is skipped. -/
def illegalError (t : Token) : SyntaxError := ⟨t.line, .illegal t.className⟩

variable {table : Table} {m m' m₀ : Machine} {fates : List (Fate × Token)}

theorem Machine.endMarker_advance : m.advance.endMarker = m.endMarker := by
  unfold Machine.advance
  split <;> rfl

/-- Behind the last token comes the marker. -/
theorem Machine.lookahead_advance (h : m.advance.lookahead.isEndOfInput = true)
    (hm : ∀ t ∈ m.upcoming, t.isEndOfInput = false) : m.advance.lookahead = m.endMarker := by
  unfold Machine.advance at h ⊢
  split at h
  · rfl
  · rename_i t rest hu
    rw [hm t (by rw [hu]; exact List.mem_cons_self)] at h
    cases h

/-- **What a step does,** with what becomes of the next token if it is passed. -/
inductive Turn (table : Table) (m : Machine) : Option Fate → Machine → Prop
  | act {a : Action} {rest : List Goal} {g : Emission.Generator} (hg : m.goals = .act a :: rest)
      (h : Emission.perform a m.lastLexeme m.lastLine m.generator = .ok () g) :
      Turn table m none { m with goals := rest, generator := g }
  | close {rest : List Goal} (hg : m.goals = .textEnd :: rest)
      (hend : m.lookahead.isEndOfInput = true) :
      Turn table m none { m with
        goals := rest
        tree := m.tree.addChild Tree.root Terminal.endMarker.lexeme }
  | shift {t : Terminal} {node : Nat} {rest : List Goal} (hg : m.goals = .leaf t node :: rest)
      (h : Terminal.ofToken? m.lookahead = some t) :
      Turn table m (some .matched) ({ m with goals := rest }.shift node)
  | expand {n : Nonterminal} {node : Nat} {rest : List Goal} {body : List Grammar.Symbol}
      (hg : m.goals = .phrase n node :: rest) (h : m.predicted? table n = some body) :
      Turn table m none ({ m with goals := rest }.expand node body)
  | missingTerminal {t : Terminal} {node : Nat} {rest : List Goal}
      (hg : m.goals = .leaf t node :: rest) (h : Terminal.ofToken? m.lookahead ≠ some t) :
      Turn table m none ({ m with goals := rest }.giveUp (.leaf t node) t.lexeme)
  | missingPhrase {n : Nonterminal} {node : Nat} {rest : List Goal}
      (hg : m.goals = .phrase n node :: rest) (h : m.predicted? table n = none)
      (hfollow : m.canFollow table n = true) :
      Turn table m none ({ m with goals := rest }.giveUp (.phrase n node) n.name)
  | tooLong {rest : List Goal} (hg : m.goals = .textEnd :: rest)
      (hend : m.lookahead.isEndOfInput = false) : Turn table m (some .skipped) m.skip
  | illegal {n : Nonterminal} {node : Nat} {rest : List Goal}
      (hg : m.goals = .phrase n node :: rest) (h : m.predicted? table n = none)
      (hfollow : m.canFollow table n = false) (hend : m.lookahead.isEndOfInput = false) :
      Turn table m (some .skipped) m.skip
  | abandon {n : Nonterminal} {node : Nat} {rest : List Goal}
      (hg : m.goals = .phrase n node :: rest) (h : m.predicted? table n = none)
      (hfollow : m.canFollow table n = false) (hend : m.lookahead.isEndOfInput = true) :
      Turn table m none m.abandon

/-- **Every step is one of these.** -/
theorem turn_of_step {goal : Goal} {rest : List Goal} (hg : m.goals = goal :: rest)
    (h : m.step table goal rest = .ok m') : ∃ fate?, Turn table m fate? m' := by
  unfold Machine.step at h
  cases goal with
  | act a =>
    simp only [Machine.act] at h
    split at h
    · rename_i g hp
      cases h
      exact ⟨_, .act hg hp⟩
    · cases h
  | textEnd =>
    simp only at h
    split at h
    · rename_i hend
      cases h
      exact ⟨_, .close hg hend⟩
    · rename_i hend
      cases h
      exact ⟨_, .tooLong hg (by simpa using hend)⟩
  | leaf t node =>
    simp only at h
    split at h
    · rename_i ht
      cases h
      exact ⟨_, .shift hg ht⟩
    · rename_i ht
      cases h
      exact ⟨_, .missingTerminal hg ht⟩
  | phrase n node =>
    simp only at h
    split at h
    · rename_i body hb
      cases h
      exact ⟨_, .expand hg hb⟩
    · rename_i hb
      split at h
      · rename_i hfollow
        cases h
        exact ⟨_, .missingPhrase hg hb hfollow⟩
      · rename_i hfollow
        rw [Bool.not_eq_true] at hfollow
        split at h
        · rename_i hend
          cases h
          exact ⟨_, .abandon hg hb hfollow hend⟩
        · rename_i hend
          cases h
          exact ⟨_, .illegal hg hb hfollow (by simpa using hend)⟩

/-- A step is a move. -/
theorem Turn.move {fate? : Option Fate} (h : Turn table m fate? m') : Move table m m' := by
  cases h with
  | act hg h => exact .act hg h
  | close hg hend => exact .close hg hend
  | shift hg h => exact .shift hg h
  | expand hg h => exact .expand hg h
  | missingTerminal hg h => exact .giveUp hg (.inl ⟨_, _, rfl, h⟩)
  | missingPhrase hg h _ => exact .giveUp hg (.inr ⟨_, _, rfl, h⟩)
  | tooLong hg hend => exact .skip hend (.inl ⟨_, hg⟩)
  | illegal hg h _ hend => exact .skip hend (.inr ⟨_, _, _, hg, h⟩)
  | abandon hg h _ _ => exact .abandon hg h

/-- **A run of steps,** with what has become of the tokens that it has passed. -/
inductive Course (table : Table) (m₀ : Machine) : List (Fate × Token) → Machine → Prop
  | start : Course table m₀ [] m₀
  | turn {fates : List (Fate × Token)} {m m' : Machine} {fate? : Option Fate}
      (h : Course table m₀ fates m) (hturn : Turn table m fate? m') :
      Course table m₀ (fates ++ fate?.toList.map fun fate => (fate, m.lookahead)) m'

namespace Course

theorem reaches (h : Course table m₀ fates m) : Reaches table m₀ m := by
  induction h with
  | start => exact .refl
  | turn _ hturn ih => exact .tail ih hturn.move

/-- A run of the machine goes on with a course. -/
theorem run {bound : Nat} (h : Course table m₀ fates m) (hrun : m.run table bound = .ok m') :
    ∃ fates', Course table m₀ fates' m' := by
  induction bound generalizing m fates with
  | zero =>
    simp only [Machine.run, Except.ok.injEq] at hrun
    exact ⟨fates, hrun ▸ h⟩
  | succ bound ih =>
    unfold Machine.run at hrun
    split at hrun
    · rename_i hz
      cases hz
    · cases hrun
      exact ⟨fates, h⟩
    · rename_i b goal rest hb hg
      cases hb
      split at hrun
      · rename_i next hstep
        obtain ⟨fate?, hturn⟩ := turn_of_step hg hstep
        exact ih (h.turn hturn) hrun
      · cases hrun

/-- The tokens are in order all along. -/
theorem orderly (h : Course table m₀ fates m) (hm₀ : m₀.Orderly) : m.Orderly :=
  hm₀.reaches h.reaches

/-- **No token is lost:** those that are passed come before those that are still to come. -/
theorem tokens (h : Course table m₀ fates m) (hm₀ : m₀.Orderly) :
    m₀.pending = fates.map Prod.snd ++ m.pending := by
  induction h with
  | start => rfl
  | @turn fates m m' fate? h hturn ih =>
    have hm := h.orderly hm₀
    have hpass : m.lookahead.isEndOfInput = false →
        m.pending = m.lookahead :: m.pending.tail := fun hend => by
      rw [pending_eq_cons hend]
      rfl
    rw [ih, List.map_append, List.append_assoc]
    refine congrArg (_ ++ ·) ?_
    cases hturn with
    | act | close | expand => rfl
    | @shift t node rest hg ht =>
      have hne : t ≠ .endMarker := hm.goals t node (by rw [hg]; exact List.mem_cons_self)
      have hm' : Orderly { m with goals := rest } := hm.of_goals fun u v hmem =>
        hm.goals u v (by rw [hg]; exact List.mem_cons_of_mem _ hmem)
      rw [pending_shift hm']
      exact hpass (isEndOfInput_of_ofToken? ht hne)
    | @missingTerminal t node rest =>
      obtain ⟨tree, heq⟩ := giveUp_eq (m := { m with goals := rest }) (.leaf t node) t.lexeme
      rw [heq]
      rfl
    | @missingPhrase n node rest =>
      obtain ⟨tree, heq⟩ := giveUp_eq (m := { m with goals := rest }) (.phrase n node) n.name
      rw [heq]
      rfl
    | tooLong _ hend | illegal _ _ _ hend =>
      rw [pending_skip hm]
      exact hpass hend
    | abandon =>
      obtain ⟨tree, heq⟩ := abandon_eq (m := m)
      rw [heq]
      rfl

/-- The marker is that of the start. -/
theorem endMarker (h : Course table m₀ fates m) : m.endMarker = m₀.endMarker := by
  induction h with
  | start => rfl
  | @turn fates m m' fate? h hturn ih =>
    rw [← ih]
    cases hturn with
    | act | close | expand => rfl
    | shift => exact endMarker_advance
    | @missingTerminal t node rest =>
      obtain ⟨tree, heq⟩ := giveUp_eq (m := { m with goals := rest }) (.leaf t node) t.lexeme
      rw [heq]
    | @missingPhrase n node rest =>
      obtain ⟨tree, heq⟩ := giveUp_eq (m := { m with goals := rest }) (.phrase n node) n.name
      rw [heq]
    | tooLong | illegal => exact endMarker_advance
    | abandon =>
      obtain ⟨tree, heq⟩ := abandon_eq (m := m)
      rw [heq]

/-- What is seen behind the last token is the marker. -/
theorem lookahead_of_end (h : Course table m₀ fates m) (hm₀ : m₀.Orderly)
    (hmarker : m₀.lookahead.isEndOfInput = true → m₀.lookahead = m₀.endMarker)
    (hend : m.lookahead.isEndOfInput = true) : m.lookahead = m₀.endMarker := by
  induction h with
  | start => exact hmarker hend
  | @turn fates m m' fate? h hturn ih =>
    have hm := h.orderly hm₀
    have heq := h.endMarker
    cases hturn with
    | act | close | expand => exact ih hend
    | shift => exact (lookahead_advance hend hm.tokens).trans heq
    | @missingTerminal t node rest =>
      obtain ⟨tree, hgive⟩ := giveUp_eq (m := { m with goals := rest }) (.leaf t node) t.lexeme
      rw [hgive] at hend ⊢
      exact ih hend
    | @missingPhrase n node rest =>
      obtain ⟨tree, hgive⟩ := giveUp_eq (m := { m with goals := rest }) (.phrase n node) n.name
      rw [hgive] at hend ⊢
      exact ih hend
    | tooLong | illegal => exact (lookahead_advance hend hm.tokens).trans heq
    | abandon =>
      obtain ⟨tree, hall⟩ := abandon_eq (m := m)
      rw [hall] at hend ⊢
      exact ih hend

/-- **The next token** is that behind those that have been passed. -/
theorem lookahead (h : Course table m₀ fates m) (hm₀ : m₀.Orderly)
    (hmarker : m₀.lookahead.isEndOfInput = true → m₀.lookahead = m₀.endMarker) :
    m.lookahead = m₀.pending[fates.length]?.getD m₀.endMarker := by
  have hlen : fates.length = (fates.map Prod.snd).length := (List.length_map _).symm
  rw [h.tokens hm₀, hlen, List.getElem?_append_right (Nat.le_refl _), Nat.sub_self]
  cases hend : m.lookahead.isEndOfInput with
  | false =>
    rw [pending_eq_cons hend]
    rfl
  | true =>
    rw [pending, if_pos hend]
    exact h.lookahead_of_end hm₀ hmarker hend

end Course

/-- **What a step adds to the errors:** one for a token that is skipped, and else one for what is
missing, or for a text that ends too early, or none. -/
theorem Turn.errors {fate? : Option Fate} (h : Turn table m fate? m') :
    ∃ new, m'.errors.toList = m.errors.toList ++ new ∧
      (fate? = some .skipped ∧ new = [illegalError m.lookahead] ∨
        fate? ≠ some .skipped ∧ (new = [] ∨
          (∃ name, new = [⟨m.lookahead.line, .missing name⟩]) ∨
            m'.goals = [] ∧ new = [⟨m.lookahead.line, .unexpectedEnd⟩])) := by
  have hskip : m.skip.errors.toList = m.errors.toList ++ [illegalError m.lookahead] := by
    rw [Machine.skip, errors_advance]
    exact Array.toList_push
  cases h with
  | act | close | expand => exact ⟨[], (List.append_nil _).symm, .inr ⟨fun hc => (by cases hc), .inl rfl⟩⟩
  | shift => exact ⟨[], by rw [errors_shift]; simp, .inr ⟨fun hc => (by cases hc), .inl rfl⟩⟩
  | @missingTerminal t node rest =>
    obtain ⟨tree, heq⟩ := giveUp_eq (m := { m with goals := rest }) (.leaf t node) t.lexeme
    rw [heq]
    exact ⟨_, Array.toList_push, .inr ⟨fun hc => (by cases hc), .inr (.inl ⟨_, rfl⟩)⟩⟩
  | @missingPhrase n node rest =>
    obtain ⟨tree, heq⟩ := giveUp_eq (m := { m with goals := rest }) (.phrase n node) n.name
    rw [heq]
    exact ⟨_, Array.toList_push, .inr ⟨fun hc => (by cases hc), .inr (.inl ⟨_, rfl⟩)⟩⟩
  | tooLong | illegal => exact ⟨_, hskip, .inl ⟨rfl, rfl⟩⟩
  | abandon =>
    obtain ⟨tree, heq⟩ := abandon_eq (m := m)
    rw [heq]
    exact ⟨_, Array.toList_push, .inr ⟨fun hc => (by cases hc), .inr (.inr ⟨rfl, rfl⟩)⟩⟩

namespace Course

variable (hm₀ : m₀.errors = #[])
include hm₀

/-- **There is an error for each token that is skipped,** and for no other. -/
theorem illegal (h : Course table m₀ fates m) :
    m.errors.toList.filter SyntaxError.isIllegal = (tokensOf .skipped fates).map illegalError := by
  induction h with
  | start =>
    rw [hm₀]
    rfl
  | @turn fates m m' fate? h hturn ih =>
    obtain ⟨new, hnew, ⟨rfl, rfl⟩ | ⟨hne, hnew'⟩⟩ := hturn.errors
    · rw [hnew, List.filter_append, ih]
      simp [tokensOf, illegalError, SyntaxError.isIllegal]
    · have hnone : new.filter SyntaxError.isIllegal = [] := by
        obtain rfl | ⟨name, rfl⟩ | ⟨-, rfl⟩ := hnew' <;> rfl
      have hsame : tokensOf .skipped (fates ++ fate?.toList.map fun fate => (fate, m.lookahead)) =
          tokensOf .skipped fates := by
        cases fate? with
        | none => simp [tokensOf]
        | some fate =>
          have hmatched : fate ≠ .skipped := fun heq => hne (congrArg some heq)
          simp [tokensOf, hmatched]
      rw [hnew, List.filter_append, ih, hnone, List.append_nil, hsame]

/-- **A text ends too early once at most,** and then no goal is left and no error comes behind. -/
theorem ended (h : Course table m₀ fates m) :
    (∀ e ∈ m.errors.toList, e.fault ≠ .unexpectedEnd) ∨ m.goals = [] ∧ ∃ before line,
      m.errors.toList = before ++ [⟨line, .unexpectedEnd⟩] ∧
        ∀ e ∈ before, e.fault ≠ .unexpectedEnd := by
  induction h with
  | start =>
    rw [hm₀]
    exact .inl nofun
  | @turn fates m m' fate? h hturn ih =>
    rcases ih with hnone | ⟨hgoals, -⟩
    · obtain ⟨new, hnew, hcases⟩ := hturn.errors
      have hkept : (∀ e ∈ new, e.fault ≠ .unexpectedEnd) →
          ∀ e ∈ m'.errors.toList, e.fault ≠ .unexpectedEnd := fun hall e he => by
        rw [hnew] at he
        exact (List.mem_append.1 he).elim (hnone e) (hall e)
      obtain ⟨-, rfl⟩ | ⟨-, rfl | ⟨name, rfl⟩ | ⟨hgoals, rfl⟩⟩ := hcases
      · exact .inl (hkept (by simp [illegalError]))
      · exact .inl (hkept nofun)
      · exact .inl (hkept (by simp))
      · exact .inr ⟨hgoals, _, _, hnew, hnone⟩
    · -- without goals there is no step
      cases hturn <;> simp_all

end Course

/-- **The derivation of a text** is a course from its first token on, that leaves no goal. -/
theorem course_of_parse {config : Config} {source : String} {o : Outcome}
    (h : parse config source = .ok o) : ∃ table fates m, Grammar.table = .ok table ∧
      Course table (begun config source) fates m ∧ m.goals = [] ∧
        o = ⟨Lexical.scan config.keywords source, m.errors.toList, m.tree, m.generator,
          m.lookahead.line⟩ := by
  obtain ⟨table, m, htable, hrun, hgoals, rfl⟩ := run_of_parse h
  obtain ⟨fates, hcourse⟩ := Course.start.run hrun
  exact ⟨table, fates, m, htable, hcourse, hgoals, rfl⟩

end Derivation

end OnePass
