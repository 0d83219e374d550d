import OnePass.Proofs.Derivation.Headers
import OnePass.Proofs.Grammar.LanguageTable

/-!
# No derivation fails, but for a full zone

Whatever the text is, every machine that its derivation comes to is one that no move fails
in, unless a zone of the memory image is full. All that is numbered in such a machine is
there: rows, scopes, nodes of the tree, and the slots that wait for the end of a loop.

* `Machine.Secured`: a machine that no move fails in. `Secured.move`, `secured_begun`.
* `full_of_run`: a run only stops at a full zone.
* `Machine.InRange`: the numbers in a machine lead somewhere. `Secured.inRange`.
-/

namespace OnePass.Derivation

open Emission Names
open Grammar (Nonterminal Table Terminal productions)
open Lexical (Token)
open Machine

variable {table : Table} {m m' : Machine} {goal : Goal} {rest : List Goal}

section Numbered

/-- Dropping a goal's node makes no new ones. -/
theorem Machine.Numbered.drop (h : m.Numbered) (goal : Goal) : (m.drop goal).Numbered := by
  unfold Machine.drop
  split
  · refine ⟨fun i hi => ?_, fun g hg i hi => ?_⟩
    · rw [Tree.next_drop]
      exact h.tree i (Tree.mem_ids_drop hi)
    · rw [Tree.next_drop]
      exact h.goals g hg i hi
  · exact h

/-- **Every move keeps the nodes numbered.** -/
theorem Machine.Numbered.move (h : m.Numbered) (hmove : Move table m m') : m'.Numbered := by
  cases hmove with
  | act hg _ => exact ⟨h.tree, h.rest hg⟩
  | @close rest hg _ =>
    refine ⟨fun i hi => ?_, fun g hmem i hi => ?_⟩
    · rw [Tree.addChild, Tree.forest_addChildren] at hi
      rcases Forest.mem_ids_graft hi with hi | hi
      · exact Nat.lt_add_right _ (h.tree i hi)
      · rw [Forest.ids_leaves, List.mem_range'_1] at hi
        exact hi.2
    · exact Nat.lt_add_right _ (h.rest hg g hmem i hi)
  | shift hg _ => exact h.shift hg
  | expand hg _ => exact h.expand hg
  | @giveUp goal name rest hg _ =>
    exact Numbered.drop (m := { m with goals := rest }.complain _) ⟨h.tree, h.rest hg⟩ goal
  | skip _ _ =>
    refine ⟨?_, ?_⟩
    · rw [Machine.skip, tree_advance]
      exact h.tree
    · rw [Machine.skip, tree_advance, goals_advance]
      exact h.goals
  | abandon hg _ =>
    refine ⟨?_, List.forall_mem_nil _⟩
    have hdrop : ∀ (goals : List Goal) (m : Machine), m.Numbered →
        (goals.foldl Machine.drop m).Numbered := by
      intro goals
      induction goals with
      | nil => exact fun _ hm => hm
      | cons goal goals ih => exact fun m hm => ih _ (hm.drop goal)
    exact (hdrop m.goals (m.complain .unexpectedEnd) ⟨h.tree, h.goals⟩).tree

end Numbered

/-- **A machine that no move fails in.** -/
structure Machine.Secured (config : Config) (m : Machine) : Prop where
  orderly : m.Orderly
  numbered : m.Numbered
  scanning : Scanning (.reserving config.keywords) m
  loops : ∀ a, .act a ∈ m.goals → a = .loopBegin ∨ a = .loopEnd →
    config.keywords.contains loopKeyword = true
  calm : ∃ header, Place config.keywords m.lookahead m.lastLexeme header m.goals ∧
    Calm config.keywords header m.generator

section Secured

variable {config : Config} {source : String}

theorem calm_advance {keywords : List String} {header : Bool}
    (h : Calm keywords header m.generator) : Calm keywords header m.advance.generator := by
  unfold Machine.advance
  split
  · exact h
  · exact h.withSymbols (h.table.record _) (stays_record _)

theorem act_mem_goalsOf {a : Grammar.Action} {k : Nat} {body : List Grammar.Symbol}
    (h : .act a ∈ goalsOf k body) : Grammar.Symbol.action a ∈ body := by
  have hmem : Grammar.Symbol.action a ∈ symbolsOf (goalsOf k body) :=
    List.mem_filterMap.2 ⟨_, h, rfl⟩
  rwa [symbolsOf_goalsOf] at hmem

/-- **An action finds what it needs,** and if it fails a zone is full. -/
theorem Machine.Secured.act (h : m.Secured config) {a : Grammar.Action}
    (hg : m.goals = .act a :: rest) : ∃ header,
      Place config.keywords m.lookahead m.lastLexeme (heading header a) rest ∧
        Secure (Calm config.keywords header) (perform a m.lastLexeme m.lastLine) m.generator
          fun _ g => Calm config.keywords (heading header a) g := by
  obtain ⟨header, hplace, hcalm⟩ := h.calm
  rw [hg] at hplace
  obtain ⟨hheader, hname, hrest⟩ := hplace.act
  exact ⟨header, hrest, secure_perform hcalm hheader hname (h.loops a (hg ▸ List.mem_cons_self))⟩

theorem Machine.Secured.loops_rest (h : m.Secured config) (hg : m.goals = goal :: rest) :
    ∀ a, .act a ∈ rest → a = .loopBegin ∨ a = .loopEnd →
      config.keywords.contains loopKeyword = true := fun a ha =>
  h.loops a (by rw [hg]; exact List.mem_cons_of_mem _ ha)

/-- The loop keyword is the text of its terminal only. -/
theorem lexeme_ne_loopKeyword {token : Token} (h : Terminal.ofToken? token = some .kwDef) :
    token.lexeme ≠ loopKeyword := by
  intro hc
  unfold Terminal.ofToken? at h
  cases hkind : token.kind with
  | keyword | symbol =>
    simp only [hkind] at h
    have hlexeme := List.find?_some h
    rw [Bool.and_eq_true, beq_iff_eq, hc] at hlexeme
    exact absurd hlexeme.2 (by decide)
  | identifier | number | endOfInput =>
    simp only [hkind] at h
    cases h

/-- **Every move leads to such a machine.** -/
theorem Machine.Secured.move (htable : Grammar.table = .ok table) (h : m.Secured config)
    (hmove : Move table m m') : m'.Secured config := by
  have horderly := h.orderly.move hmove
  have hnumbered := h.numbered.move hmove
  cases hmove with
  | act hg hp =>
    obtain ⟨header, hplace, hsecure⟩ := h.act hg
    refine ⟨horderly, hnumbered, ⟨h.scanning.upcoming, h.scanning.lookahead, h.scanning.marker⟩,
      h.loops_rest hg, _, hplace, ?_⟩
    rw [Secure, hp] at hsecure
    exact hsecure
  | close hg _ =>
    obtain ⟨header, hplace, hcalm⟩ := h.calm
    rw [hg] at hplace
    exact ⟨horderly, hnumbered, ⟨h.scanning.upcoming, h.scanning.lookahead, h.scanning.marker⟩,
      h.loops_rest hg, header, hplace.close, hcalm⟩
  | @shift t node rest hg ht =>
    obtain ⟨header, hplace, hcalm⟩ := h.calm
    rw [hg] at hplace
    have hsuits : Suits (.reserving config.keywords) (some t) m.lookahead.lexeme :=
      suits_of_ofToken? ht h.scanning.lookahead
    have hscan : Scanning (.reserving config.keywords) { ({ m with goals := rest } : Machine) with
        tree := m.tree.relabel node m.lookahead.display
        lastLexeme := m.lookahead.lexeme
        lastLine := m.lookahead.line } :=
      ⟨h.scanning.upcoming, h.scanning.lookahead, h.scanning.marker⟩
    refine ⟨horderly, hnumbered, hscan.advance.1, ?_, header, ?_, calm_advance hcalm⟩
    · rw [goals_shift]
      exact h.loops_rest hg
    · rw [goals_shift, Machine.shift, lastLexeme_advance]
      refine hplace.shift ht (fun heq => ?_) fun heq => lexeme_ne_loopKeyword (heq ▸ ht)
      exact hsuits.name (congrArg some heq)
  | @expand n node rest body hg hb =>
    obtain ⟨header, hplace, hcalm⟩ := h.calm
    rw [hg] at hplace
    refine ⟨horderly, hnumbered, ⟨h.scanning.upcoming, h.scanning.lookahead, h.scanning.marker⟩,
      fun a ha hloop => ?_, header, hplace.expand htable hb, hcalm⟩
    rcases List.mem_append.1 ha with ha | ha
    · obtain ⟨_, i, p, -, -, hp, rfl⟩ := mem_of_predicted? hb
      have hbody := act_mem_goalsOf ha
      have hhead := body_iteration p (List.mem_of_getElem? hp) <| by
        rcases hloop with rfl | rfl
        · exact .inl hbody
        · exact .inr hbody
      have hsuits : Suits (.reserving config.keywords) (some .kwWhile) m.lookahead.lexeme :=
        suits_of_ofToken? (ofToken?_of_predicted? htable hb hhead) h.scanning.lookahead
      exact hsuits.loop rfl
    · exact h.loops_rest hg a ha hloop
  | @giveUp goal name rest hg hgoal =>
    obtain ⟨header, hplace, hcalm⟩ := h.calm
    rw [hg] at hplace
    obtain ⟨tree, heq⟩ := giveUp_eq (m := { m with goals := rest }) goal name
    rw [heq] at horderly hnumbered ⊢
    refine ⟨horderly, hnumbered, ⟨h.scanning.upcoming, h.scanning.lookahead, h.scanning.marker⟩,
      h.loops_rest hg, header, hplace.giveUp ?_, hcalm⟩
    refine hgoal.imp_right fun hphrase => ?_
    obtain ⟨n, node, heq, -⟩ := hphrase
    exact ⟨n, node, heq⟩
  | skip hend hg =>
    obtain ⟨header, hplace, hcalm⟩ := h.calm
    have hscan : Scanning (.reserving config.keywords)
        (m.complain (.illegal m.lookahead.className)) :=
      ⟨h.scanning.upcoming, h.scanning.lookahead, h.scanning.marker⟩
    refine ⟨horderly, hnumbered, hscan.advance.1, ?_, header, ?_, calm_advance hcalm⟩
    · rw [Machine.skip, goals_advance]
      exact h.loops
    · rw [Machine.skip, goals_advance, lastLexeme_advance]
      change Place _ _ m.lastLexeme header m.goals
      rcases hg with ⟨rest, hg⟩ | ⟨n, node, rest, hg, -⟩
      · rw [hg] at hplace ⊢
        exact hplace.skip (.inl rfl)
      · rw [hg] at hplace ⊢
        exact hplace.skip (.inr ⟨n, node, rfl⟩)
  | abandon hg _ =>
    obtain ⟨header, -, hcalm⟩ := h.calm
    obtain ⟨tree, heq⟩ := abandon_eq (m := m)
    rw [heq] at horderly hnumbered ⊢
    exact ⟨horderly, hnumbered, ⟨h.scanning.upcoming, h.scanning.lookahead, h.scanning.marker⟩,
      fun _ hc => (by cases hc), header, .over header, hcalm⟩

theorem Machine.Secured.reaches (htable : Grammar.table = .ok table) (h : m.Secured config)
    (hr : Reaches table m m') : m'.Secured config := by
  induction hr with
  | refl => exact h
  | tail _ hmove ih => exact ih.move htable hmove

theorem secured_begun (config : Config) (source : String) :
    (begun config source).Secured config where
  orderly := orderly_begun config source
  numbered := numbered_begun config source
  scanning := scanning_begun config source
  loops a ha := by
    rw [goals_begun] at ha
    simp at ha
  calm := by
    refine ⟨false, .outside ?_, ?_⟩
    · rw [goals_begun]
      simp [Goal.outside]
    · exact calm_advance ⟨SymbolTable.usable_ofKeywords config.keywords, nofun, nofun⟩

/-- A step that fails is an action that finds a zone full. -/
theorem full_of_step {e : Failure} (h : m.Secured config) (hg : m.goals = goal :: rest)
    (hstep : m.step table goal rest = .error e) : e.IsFull := by
  unfold Machine.step at hstep
  cases goal with
  | act a =>
    obtain ⟨header, -, hsecure⟩ := h.act hg
    dsimp only [Machine.act] at hstep
    split at hstep
    · cases hstep
    · rename_i e' g' hp
      cases hstep
      exact (hsecure.error hp).1
  | textEnd =>
    dsimp only at hstep
    split at hstep <;> cases hstep
  | leaf t node =>
    dsimp only at hstep
    split at hstep <;> cases hstep
  | phrase n node =>
    dsimp only at hstep
    split at hstep
    · cases hstep
    · split at hstep
      · cases hstep
      · split at hstep <;> cases hstep

/-- **A run only stops at a full zone.** -/
theorem full_of_run (htable : Grammar.table = .ok table) {bound : Nat} {e : Failure}
    (h : m.Secured config) (hrun : run table bound m = .error e) : e.IsFull := by
  induction bound generalizing m with
  | zero => cases hrun
  | succ bound ih =>
    unfold run at hrun
    split at hrun
    · cases hrun
    · cases hrun
    · rename_i b goal rest hb hg
      cases hb
      split at hrun
      · rename_i next hstep
        exact ih (h.move htable (move_of_step hg hstep)) hrun
      · rename_i e' hstep
        cases hrun
        exact full_of_step h hg hstep

end Secured

/-- **Numbers that lead somewhere.** The rows that scopes, definitions and loops count on are rows of
the table, scopes are there, marks lie within the lists they cut, and nodes are nodes of the tree. -/
structure Machine.InRange (m : Machine) : Prop where
  symbols : m.generator.symbols.Indexed
  definitions : ∀ d ∈ m.generator.definitions, d.row < m.generator.symbols.rows.size
  last : ∀ row, m.generator.lastDefined = some row → row < m.generator.symbols.rows.size
  nodes : ∀ goal ∈ m.goals, ∀ node, goal.node? = some node → node < m.tree.next
  tree : ∀ i ∈ m.tree.forest.ids, i < m.tree.next

theorem Machine.Secured.inRange {config : Config} (h : m.Secured config) : m.InRange := by
  obtain ⟨header, -, hcalm⟩ := h.calm
  exact ⟨hcalm.table.indexed, hcalm.standing.lt, hcalm.last, h.numbered.goals,
    h.numbered.tree⟩

/-- The table names productions of the language only. -/
theorem lt_of_production? (htable : Grammar.table = .ok table) {n : Nonterminal} {t : Terminal}
    {i : Nat} (h : table.production? n t = some i) : i < productions.length := by
  obtain ⟨p, hp, -⟩ := Grammar.mem_of_production? htable h
  exact (List.getElem?_eq_some_iff.1 hp).1

end OnePass.Derivation
