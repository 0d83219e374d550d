import OnePass.Proofs.Derivation.Unfailing
import OnePass.Proofs.Grammar.Layers
import OnePass.Proofs.Lexical.Spans
import OnePass.Proofs.Names.Sight

/-!
# Names that are used, and layers that are closed, on any run

Whatever is repaired, an action that uses a name comes right behind a name or, if that is missing,
right behind the word that its rule begins with. So it finds a text that may be a name, or that
word: where the loop keyword is reserved it is not that. No text of a program looks like the name
of a retired function. And whatever is given up, what is open is closed by the goals that are left.

* `unmarked_of_mem_scan`, `unmarked_move`: no text is a retired name.
* `Naming`: where actions that use a name stand. `naming_move`, `Naming.act`.
* `advances_move`, `generator_move`: what the moves do that perform no action.
* `Closing`: goals that close what is open. `Closing.move`, `Closing.act`.
-/

namespace OnePass

namespace Lexical

/-- What holds of every token that is cut off holds of every token of a scan. -/
theorem forall_mem_scan {P : Token → Prop} {keywords : List String} {source : String}
    (h : ∀ (s s' : Scanner) (t : Token), s.next? = some (.token t, s') → P t) :
    ∀ t ∈ (scan keywords source).tokens, P t := by
  have hpiece : ∀ (s s' : Scanner) (t : Token), s.nextPiece = (some (.ok t), s') → P t := by
    intro s s' t hs
    fun_induction Scanner.nextPiece s with
    | case1 s => simp at hs
    | case2 s s₁ step shorter ih => exact ih hs
    | case3 s t₁ s₁ step =>
      simp only [Prod.mk.injEq, Option.some.injEq, Except.ok.injEq] at hs
      exact hs.1 ▸ h s s₁ t₁ step
    | case4 s e s₁ step => simp at hs
  have hpull : ∀ s : Scanner, (∀ t ∈ s.tokens.toList, P t) →
      ∀ t ∈ s.pull.2.tokens.toList, P t := by
    intro s hs
    fun_induction Scanner.pull s with
    | case1 s s₁ step =>
      have hframe := s.nextPiece_frame.2.1
      rw [step] at hframe
      exact hframe ▸ hs
    | case2 s t s₁ step =>
      have hframe := s.nextPiece_frame.2.1
      rw [step] at hframe
      intro t' ht'
      rw [Array.toList_push, List.mem_append, List.mem_singleton, hframe] at ht'
      rcases ht' with ht' | rfl
      · exact hs t' ht'
      · exact hpiece s s₁ _ step
    | case3 s e s₁ step shorter ih =>
      have hframe := s.nextPiece_frame.2.1
      rw [step] at hframe
      exact ih (hframe ▸ hs)
  have hdrain : ∀ s : Scanner, (∀ t ∈ s.tokens.toList, P t) →
      ∀ t ∈ s.drain.tokens.toList, P t := by
    intro s hs
    fun_induction Scanner.drain s with
    | case1 s t s₁ step last =>
      have hnext := hpull s hs
      rw [step] at hnext
      exact hnext
    | case2 s t s₁ step last shorter ih =>
      have hnext := hpull s hs
      rw [step] at hnext
      exact ih hnext
  exact hdrain (Scanner.start keywords source) (List.forall_mem_nil _)

/-- **No token is marked:** its text begins with a character that a rule begins with. -/
theorem unmarked_of_mem_scan {keywords : List String} {source : String} {t : Token}
    (h : t ∈ (scan keywords source).tokens) : Names.Unmarked t.lexeme := by
  refine forall_mem_scan (P := fun t => Names.Unmarked t.lexeme) (fun s s' t hs => ?_) t h
  rw [Scanner.next?_eq] at hs
  split at hs
  · cases hs
  · rename_i c cs _
    simp only [Option.some.injEq, Prod.mk.injEq] at hs
    have hlexeme := (Scanner.judge_token hs.1).1
    have hfirst : c ≠ '~' := by
      rintro rfl
      have hcut : cut '~' cs = ⟨.fault .invalidInput, ['~'], cs⟩ := rfl
      rw [hcut] at hs
      cases hs.1
    have happend := cut_append c cs
    rw [Names.Unmarked, hlexeme, String.toList_ofList]
    cases htext : (cut c cs).text with
    | nil => exact absurd htext (cut_text_ne_nil c cs)
    | cons c' text =>
      rw [htext] at happend
      obtain ⟨rfl, -⟩ := List.cons.inj happend
      have hmark : Names.retiredMark.toList = ['~', 'd', 'e', 'a', 'd', '~'] := rfl
      rw [hmark, List.isPrefixOf, beq_eq_false_iff_ne.2 (Ne.symm hfirst), Bool.false_and]

end Lexical

namespace Derivation

open Emission Names
open Grammar (Action Layer Nonterminal Symbol Table Terminal atName behindName productions)
open Lexical (Token)
open Machine

variable {table : Table} {m m' : Machine} {keywords : List String}

section Unmarked

/-- **A machine whose texts are all unmarked.** -/
structure Machine.Unmarked (m : Machine) : Prop where
  upcoming : ∀ t ∈ m.upcoming, Names.Unmarked t.lexeme
  lookahead : Names.Unmarked m.lookahead.lexeme
  marker : Names.Unmarked m.endMarker.lexeme
  last : Names.Unmarked m.lastLexeme

theorem Machine.Unmarked.advance (h : m.Unmarked) : m.advance.Unmarked := by
  unfold Machine.advance
  split
  · exact { h with lookahead := h.marker }
  · rename_i t rest hu
    have hup := h.upcoming
    rw [hu, List.forall_mem_cons] at hup
    exact { h with upcoming := hup.2, lookahead := hup.1 }

theorem unmarked_move (h : m.Unmarked) (hmove : Move table m m') : m'.Unmarked := by
  cases hmove with
  | act | close | expand => exact ⟨h.upcoming, h.lookahead, h.marker, h.last⟩
  | shift =>
    exact Machine.Unmarked.advance (m := { ({ m with goals := _ } : Machine) with
      tree := _, lastLexeme := m.lookahead.lexeme, lastLine := _ })
      ⟨h.upcoming, h.lookahead, h.marker, h.lookahead⟩
  | @giveUp goal name rest =>
    obtain ⟨tree, heq⟩ := giveUp_eq (m := { m with goals := rest }) goal name
    rw [heq]
    exact ⟨h.upcoming, h.lookahead, h.marker, h.last⟩
  | skip =>
    exact Machine.Unmarked.advance (m := m.complain _)
      ⟨h.upcoming, h.lookahead, h.marker, h.last⟩
  | abandon =>
    obtain ⟨tree, heq⟩ := abandon_eq (m := m)
    rw [heq]
    exact ⟨h.upcoming, h.lookahead, h.marker, h.last⟩

theorem unmarked_begun (config : Config) (source : String) : (begun config source).Unmarked :=
  Machine.Unmarked.advance ⟨fun _ => Lexical.unmarked_of_mem_scan,
    (rfl : Names.Unmarked (Token.endOfInput 0 0).lexeme),
    (rfl : Names.Unmarked (Token.endOfInput 0 0).lexeme), (rfl : Names.Unmarked "")⟩

end Unmarked

section Naming

/-- **Where actions that use a name stand,** before a token and behind a lexeme: nowhere near, right
behind a name, or behind a terminal that is the next token. Where the lexeme is a reserved word in
the place of a name, only the action that the word leads to stands there. -/
inductive Naming (keywords : List String) (next : Token) (last : String) : List Goal → Prop
  | nameless {goals : List Goal} (h : (symbolsOf goals).all Symbol.nameless = true) :
    Naming keywords next last goals
  | named {goals : List Goal}
      (hl : keywords.contains last = true → ∃ t : Terminal, t.lexeme = last ∧
        (symbolsOf goals).all (Symbol.ledBy t) = true)
      (h : behindName (symbolsOf goals) = true) : Naming keywords next last goals
  | word {t : Terminal} {node : Nat} {goals : List Goal} (hn : Terminal.ofToken? next = some t)
      (ht : t.beforeName = true)
      (hl : t = .identifier ∨ (symbolsOf goals).all (Symbol.ledBy t) = true)
      (h : behindName (symbolsOf goals) = true) : Naming keywords next last (.leaf t node :: goals)

variable {next next' : Token} {last : String} {s : Grammar.Symbol}
  {symbols body : List Grammar.Symbol} {goal : Goal} {rest : List Goal}

theorem nameless_tail (h : (s :: symbols).all Symbol.nameless = true) :
    symbols.all Symbol.nameless = true := by
  rw [List.all_cons, Bool.and_eq_true] at h
  exact h.2

/-- What needs no name is led by any word. -/
theorem ledBy_of_nameless {t : Terminal} (h : symbols.all Symbol.nameless = true) :
    symbols.all (Symbol.ledBy t) = true := by
  refine List.all_eq_true.2 fun s hs => ?_
  have hn := List.all_eq_true.1 h s hs
  cases s with
  | terminal => rfl
  | nonterminal => exact hn
  | action a =>
    have ha : a.behind? ≠ some .identifier := by simpa [Symbol.nameless] using hn
    exact decide_eq_true fun hc => absurd hc ha

/-- Behind what uses a name comes more of that, or nothing does. -/
theorem behindName_tail (h : behindName (s :: symbols) = true) :
    behindName symbols = true ∨ symbols.all Symbol.nameless = true := by
  rw [behindName, Bool.or_eq_true, Bool.and_eq_true] at h
  exact h.imp_left And.right

theorem behindName_append (h : behindName body = true)
    (hs : symbols.all Symbol.nameless = true) : behindName (body ++ symbols) = true := by
  induction body with
  | nil =>
    cases symbols with
    | nil => rfl
    | cons s symbols =>
      rw [List.nil_append, behindName, nameless_tail hs, Bool.or_true]
  | cons s body ih =>
    rw [behindName, Bool.or_eq_true, Bool.and_eq_true] at h
    rw [List.cons_append, behindName, Bool.or_eq_true, Bool.and_eq_true]
    refine h.imp (And.imp_right ih) fun hrest => ?_
    rw [List.all_append, hrest, hs]
    rfl

/-- **A goal is left out** that is no terminal of the next token: what comes behind it stands as
well. -/
theorem Naming.tail (h : Naming keywords next last (goal :: rest))
    (hs : ∀ t node, goal = .leaf t node → Terminal.ofToken? next ≠ some t) :
    Naming keywords next last rest := by
  cases h with
  | nameless h =>
    cases goal with
    | textEnd => exact .nameless h
    | leaf | phrase | act => exact .nameless (nameless_tail h)
  | named hl h =>
    cases goal with
    | textEnd => exact .named hl h
    | leaf | phrase | act =>
      refine (behindName_tail h).elim (.named fun hk => ?_) .nameless
      obtain ⟨t, heq, hall⟩ := hl hk
      exact ⟨t, heq, (List.all_eq_true.2 fun s hs =>
        List.all_eq_true.1 hall s (List.mem_cons_of_mem _ hs))⟩
  | word hn => exact absurd hn (hs _ _ rfl)

/-- The text of a literal terminal's token is the terminal's. -/
theorem lexeme_of_isLiteral {token : Token} {t : Terminal} (h : Terminal.ofToken? token = some t)
    (ht : t.isLiteral = true) : token.lexeme = t.lexeme := by
  unfold Terminal.ofToken? at h
  cases hkind : token.kind with
  | keyword | symbol =>
    simp only [hkind] at h
    have hlexeme := List.find?_some h
    rw [Bool.and_eq_true, beq_iff_eq] at hlexeme
    exact hlexeme.2.symm
  | identifier | number | endOfInput =>
    simp only [hkind] at h
    cases h
    cases ht

/-- **A terminal is read.** Behind one that stands before a name, or is one, names may be used. -/
theorem Naming.shift {token : Token} {t : Terminal} {node : Nat}
    (h : Naming keywords next last (.leaf t node :: rest))
    (ht : Terminal.ofToken? next = some t)
    (hname : t = .identifier → keywords.contains next.lexeme = false) :
    Naming keywords token next.lexeme rest := by
  cases h with
  | nameless h => exact .nameless (nameless_tail h)
  | named hl h =>
    change behindName (.terminal t :: symbolsOf rest) = true at h
    rw [behindName, Bool.or_eq_true, Bool.and_eq_true] at h
    rcases h with ⟨hs, h⟩ | h
    · obtain rfl : t = .identifier := by simpa [Symbol.usesName] using hs
      refine .named (fun hk => ?_) h
      rw [hname rfl] at hk
      cases hk
    · exact .nameless h
  | word _ hb hl h =>
    refine .named (fun hk => ?_) h
    have hid : t ≠ .identifier := fun hid => by
      rw [hname hid] at hk
      cases hk
    have hother : t = .comma ∨ t = .kwGlobal ∨ t = .kwDef := by
      simpa [Terminal.beforeName, hid] using hb
    refine ⟨t, ?_, hl.resolve_left hid⟩
    rcases hother with rfl | rfl | rfl <;> exact (lexeme_of_isLiteral ht rfl).symm

/-- **A token is skipped** before a phrase or at the end. -/
theorem Naming.skip {goals : List Goal} (h : Naming keywords next last goals)
    (hs : ∀ t node rest, goals ≠ .leaf t node :: rest) : Naming keywords next' last goals := by
  cases h with
  | nameless h => exact .nameless h
  | named hl h => exact .named hl h
  | word => exact absurd rfl (hs _ _ _)

/-- **A phrase is replaced by its body.** -/
theorem Naming.expand (htable : Grammar.table = .ok table) {n : Nonterminal} {node k : Nat}
    (h : Naming keywords m.lookahead last (.phrase n node :: rest))
    (hb : m.predicted? table n = some body) :
    Naming keywords m.lookahead last (goalsOf k body ++ rest) := by
  obtain ⟨t, p, ht, hp, rfl, rfl, -⟩ := lookaheads_of_predicted? htable hb
  have hrule := Grammar.named_body p hp
  have hsymbols : symbolsOf (goalsOf k p.body ++ rest) = p.body ++ symbolsOf rest := by
    rw [symbolsOf_append, symbolsOf_goalsOf]
  by_cases hbehind : p.head.behind? = some .identifier
  · rw [if_pos hbehind] at hrule
    cases h with
    | nameless h => simp [symbolsOf, Goal.symbol?, Symbol.nameless, hbehind] at h
    | named hl h =>
      refine .named (fun hk => ?_) ?_
      · -- a phrase that uses a name does not stand behind a word
        obtain ⟨t, -, hall⟩ := hl hk
        have hled : Symbol.ledBy t (.nonterminal p.head) = true :=
          List.all_eq_true.1 hall _ List.mem_cons_self
        simp [Symbol.ledBy, hbehind] at hled
      rw [hsymbols]
      refine behindName_append hrule ?_
      change behindName (.nonterminal p.head :: symbolsOf rest) = true at h
      rw [behindName, Bool.or_eq_true, Bool.and_eq_true] at h
      exact h.elim (fun h => by cases h.1) id
  · rw [if_neg hbehind] at hrule
    have hrest : (symbolsOf rest).all Symbol.nameless = true := by
      cases h with
      | nameless h => exact nameless_tail h
      | named hl h =>
        change behindName (.nonterminal p.head :: symbolsOf rest) = true at h
        rw [behindName, Bool.or_eq_true, Bool.and_eq_true] at h
        exact h.elim (fun h => by cases h.1) id
    unfold atName at hrule
    split at hrule
    · rename_i u body hbody
      rw [Bool.or_eq_true, Bool.and_eq_true, Bool.and_eq_true] at hrule
      rcases hrule with ⟨⟨hu, hled⟩, hnamed⟩ | hall
      · rw [hbody]
        refine .word ?_ hu ?_ ?_
        · exact ofToken?_of_predicted? htable hb (by rw [hbody]; rfl)
        · rw [Bool.or_eq_true, decide_eq_true_eq] at hled
          refine hled.imp_right fun hled => ?_
          change (symbolsOf (goalsOf (k + 1) body ++ rest)).all _ = true
          rw [symbolsOf_append, symbolsOf_goalsOf, List.all_append, hled, ledBy_of_nameless hrest]
          rfl
        · change behindName (symbolsOf (goalsOf (k + 1) body ++ rest)) = true
          rw [symbolsOf_append, symbolsOf_goalsOf]
          exact behindName_append hnamed hrest
      · refine .nameless ?_
        rw [hsymbols, hbody, List.cons_append, List.all_cons, List.all_append, hall, hrest]
        rfl
    · refine .nameless ?_
      rw [hsymbols, List.all_append, hrule, hrest]
      rfl

/-- **An action that uses a name has one,** or stands behind the word that leads to it. -/
theorem Naming.led {a : Action} (h : Naming keywords next last (.act a :: rest))
    (ha : a.behind? = some .identifier) (hk : keywords.contains last = true) :
    ∃ t : Terminal, t.lexeme = last ∧ t.leads? = some a := by
  cases h with
  | nameless h => simp [symbolsOf, Goal.symbol?, Symbol.nameless, ha] at h
  | named hl _ =>
    obtain ⟨t, heq, hall⟩ := hl hk
    have hled : Symbol.ledBy t (.action a) = true := List.all_eq_true.1 hall _ List.mem_cons_self
    exact ⟨t, heq, of_decide_eq_true hled ha⟩

/-- **An action is performed.** One that uses a name does not get the loop keyword. -/
theorem Naming.act {a : Action} (h : Naming keywords next last (.act a :: rest)) :
    (a.behind? = some .identifier → keywords.contains loopKeyword = true → last ≠ loopKeyword) ∧
      Naming keywords next last rest := by
  refine ⟨?_, h.tail nofun⟩
  rintro ha hk rfl
  obtain ⟨t, heq, hleads⟩ := h.led ha hk
  cases t <;> first | exact absurd heq (by decide) | cases hleads

/-- **Every move keeps names where they are used.** -/
theorem naming_move (htable : Grammar.table = .ok table)
    (hscan : Scanning (.reserving keywords) m)
    (h : Naming keywords m.lookahead m.lastLexeme m.goals) (hmove : Move table m m') :
    Naming keywords m'.lookahead m'.lastLexeme m'.goals := by
  cases hmove with
  | act hg =>
    rw [hg] at h
    exact h.act.2
  | close hg =>
    rw [hg] at h
    exact h.tail nofun
  | @shift t node rest hg ht =>
    rw [hg] at h
    rw [goals_shift, Machine.shift, lastLexeme_advance]
    refine h.shift ht ?_
    rintro rfl
    rcases hscan.lookahead with hend | hfits
    · rw [Terminal.ofToken?_eq_endMarker.2 hend] at ht
      cases ht
    · exact hfits.identifier (Terminal.ofToken?_eq_identifier.1 ht)
  | expand hg hb =>
    rw [hg] at h
    exact h.expand htable hb
  | @giveUp goal name rest hg hgoal =>
    obtain ⟨tree, heq⟩ := giveUp_eq (m := { m with goals := rest }) goal name
    rw [heq]
    rw [hg] at h
    refine h.tail ?_
    rintro t node rfl
    rcases hgoal with ⟨t', node', heq, ht⟩ | ⟨n, node', heq, -⟩
    · cases heq
      exact ht
    · cases heq
  | skip hend hg =>
    rw [Machine.skip, goals_advance, lastLexeme_advance]
    have hgoals : ∀ t node rest, m.goals ≠ .leaf t node :: rest := fun t node rest heq => by
      rcases hg with ⟨rest', hg⟩ | ⟨n, node', rest', hg, -⟩ <;> rw [hg] at heq <;> cases heq
    exact h.skip hgoals
  | abandon =>
    obtain ⟨tree, heq⟩ := abandon_eq (m := m)
    rw [heq]
    exact .nameless rfl

end Naming

section Closing

/-- **Goals that close what is open,** or none at all. -/
def Closing (layers : List Layer) (goals : List Goal) : Prop :=
  goals = [] ∨ Layer.through layers (symbolsOf goals) = some []

variable {layers : List Layer} {rest : List Goal}

/-- An action that comes next finds what it needs to be open. -/
theorem Closing.act {a : Action} (h : Closing layers (.act a :: rest)) :
    ∃ layers', a.turn layers = some layers' ∧ Closing layers' rest := by
  rcases h with h | h
  · cases h
  · obtain ⟨layers', hturn, h⟩ := Option.bind_eq_some_iff.1 h
    exact ⟨layers', hturn, .inr h⟩

/-- There is no move without a goal. -/
theorem goals_ne_nil (hmove : Move table m m') : m.goals ≠ [] := by
  cases hmove with
  | act hg | close hg | shift hg | expand hg | giveUp hg | abandon hg =>
    rw [hg]
    nofun
  | skip _ hg =>
    rcases hg with ⟨_, hg⟩ | ⟨_, _, _, hg, -⟩ <;> rw [hg] <;> nofun

/-- **What all other moves do to the symbols to come,** unless they give up all goals. -/
theorem advances_move (htable : Grammar.table = .ok table)
    (hact : ∀ a rest, m.goals ≠ .act a :: rest) (hmove : Move table m m') :
    m' = m.abandon ∨ Grammar.Advances (symbolsOf m.goals) (symbolsOf m'.goals) := by
  cases hmove with
  | act hg => exact absurd hg (hact _ _)
  | close hg =>
    rw [hg]
    exact .inr (.same _)
  | @shift t node rest hg =>
    rw [goals_shift, hg]
    exact .inr (.terminal t _)
  | @expand n node rest body hg hb =>
    obtain ⟨_, p, -, hp, rfl, rfl, -⟩ := lookaheads_of_predicted? htable hb
    rw [hg]
    change _ ∨ Grammar.Advances _ (symbolsOf (goalsOf m.tree.next p.body ++ rest))
    rw [symbolsOf_append, symbolsOf_goalsOf]
    exact .inr (.expand hp _)
  | @giveUp goal name rest hg hgoal =>
    obtain ⟨tree, heq⟩ := giveUp_eq (m := { m with goals := rest }) goal name
    rw [heq, hg]
    rcases hgoal with ⟨t, node, rfl, -⟩ | ⟨n, node, rfl, -⟩
    · exact .inr (.terminal t _)
    · exact .inr (.phrase n _)
  | skip =>
    rw [Machine.skip, goals_advance]
    exact .inr (.same _)
  | abandon => exact .inl rfl

/-- **All other moves leave generation alone,** but for a token that is recorded. -/
theorem generator_move (hscan : Scanning (.reserving keywords) m)
    (hact : ∀ a rest, m.goals ≠ .act a :: rest) (hmove : Move table m m') :
    m'.generator = m.generator ∨ (m'.lookahead.Fits keywords ∧
      m'.generator = { m.generator with symbols := m.generator.symbols.record m'.lookahead }) := by
  cases hmove with
  | act hg => exact absurd hg (hact _ _)
  | close | expand => exact .inl rfl
  | @shift t node rest =>
    exact (Scanning.advance (E := .reserving keywords)
      (m := { ({ m with goals := rest } : Machine) with
        tree := _, lastLexeme := m.lookahead.lexeme, lastLine := _ })
      ⟨hscan.upcoming, hscan.lookahead, hscan.marker⟩).2
  | @giveUp goal name rest =>
    obtain ⟨tree, heq⟩ := giveUp_eq (m := { m with goals := rest }) goal name
    rw [heq]
    exact .inl rfl
  | skip =>
    exact (Scanning.advance (E := .reserving keywords) (m := m.complain _)
      ⟨hscan.upcoming, hscan.lookahead, hscan.marker⟩).2
  | abandon =>
    obtain ⟨tree, heq⟩ := abandon_eq (m := m)
    rw [heq]
    exact .inl rfl

/-- **All other moves leave open what is open.** -/
theorem Closing.move (htable : Grammar.table = .ok table) (h : Closing layers m.goals)
    (hact : ∀ a rest, m.goals ≠ .act a :: rest) (hmove : Move table m m') :
    Closing layers m'.goals := by
  rcases advances_move htable hact hmove with rfl | hadvances
  · obtain ⟨tree, heq⟩ := abandon_eq (m := m)
    rw [heq]
    exact .inl rfl
  · rcases h with h | h
    · exact absurd h (goals_ne_nil hmove)
    · exact .inr (hadvances.through h)

theorem closing_begun (config : Config) (source : String) :
    Closing [] (begun config source).goals := by
  rw [goals_begun]
  exact .inr rfl

end Closing

end Derivation

end OnePass
