import OnePass.Proofs.Syntax.Execution
import OnePass.Proofs.Syntax.Protocol
import OnePass.Proofs.Syntax.Resolution

/-!
# Names stand for what the maps around them say

Every place in a text has its maps from names to cells: one for the whole text, and one for
each function and each loop around it. In an accepted text every use of a name pushes the cell
that they say, and reports the name if they should have one and have none. Calls and
definitions, and words that stand for nothing yet, do not matter.

* `Trace.frames`: **the maps at every place** of a derivation.
* `Placed`, `placed_of_inUses`: names, and the actions that use them.
* `Trace.Tells.depicted`: scopes show the maps all along.
* `Trace.Tells.use`: a use comes to what the maps say.
* `resolution_of_parse`: **every use of a name is resolved** by the maps.
-/

namespace OnePass.Derivation

open Emission Names Syntax
open Grammar (Action Mark Table Terminal)
open Machine

section Places

variable {u v w : List Mark} {i j : Nat} {x : String} {a : Action} {k : Mark}

theorem Span.append_left (h : Span w i j v) (u : List Mark) :
    Span (u ++ w) (u.length + i) (u.length + j) v := by
  induction u with
  | nil => simpa using h
  | cons k u ih =>
    rw [List.length_cons, Nat.add_right_comm _ 1 i, Nat.add_right_comm _ 1 j]
    exact span_shift ih

theorem span_prefix (u v : List Mark) : Span (u ++ v) 0 u.length u := by
  have h := span_take (w := u ++ v) (i := u.length) (by simp)
  rwa [List.take_left] at h

/-- **A mark in its place.** A name is used as a variable with all that belongs to it, or it is
called or defined; and an action that uses a name stands behind that. -/
structure Placed (w : List Mark) (i : Nat) : Prop where
  name : ∀ x, w[i]? = some (nameMark x) → (∃ (u : Use) (j : Nat), Span w i j (u.marks x)) ∨
    w[i + 1]? = some (.act .beginCall) ∨ w[i + 1]? = some (.act .enterFunction)
  action : ∀ a, w[i]? = some (.act a) → usesVariable a = true →
    ∃ (u : Use) (x : String) (n j : Nat), Span w n j (u.marks x) ∧ n < i ∧ i < j

theorem Placed.append_left (h : Placed w i) (u : List Mark) : Placed (u ++ w) (u.length + i) := by
  have hget : ∀ n, (u ++ w)[u.length + n]? = w[n]? := fun n => by
    rw [List.getElem?_append_right (Nat.le_add_right _ _), Nat.add_sub_cancel_left]
  refine ⟨fun x hx => ?_, fun a ha huses => ?_⟩
  · rw [hget] at hx
    rw [Nat.add_assoc, hget]
    exact (h.name x hx).imp_left fun ⟨v, j, hspan⟩ => ⟨v, _, hspan.append_left u⟩
  · rw [hget] at ha
    obtain ⟨v, x, n, j, hspan, hn, hj⟩ := h.action a ha huses
    exact ⟨v, x, _, _, hspan.append_left u, Nat.add_lt_add_left hn _, Nat.add_lt_add_left hj _⟩

theorem Placed.cons (h : Placed w i) (k : Mark) : Placed (k :: w) (i + 1) := by
  rw [Nat.add_comm]
  exact h.append_left [k]

/-- An action that uses no name can be anywhere. -/
theorem placed_act (ha : usesVariable a = false) : Placed (.act a :: w) 0 where
  name _ hx := by cases hx
  action _ hb huses := by
    cases hb
    rw [ha] at huses
    cases huses

/-- **The marks of names in use** are in their places. -/
theorem placed_of_inUses (h : InUses w) (i : Nat) : Placed w i := by
  induction h generalizing i with
  | nil => exact ⟨nofun, nofun⟩
  | @use u x w h ih =>
    have hspan := span_prefix (u.marks x) w
    rcases Nat.lt_or_ge i (u.marks x).length with hi | hi
    · cases i with
      | zero =>
        refine ⟨fun y hy => .inl ⟨u, (u.marks x).length, ?_⟩, nofun⟩
        cases hy
        exact hspan
      | succ i =>
        refine ⟨fun y hy => ?_, fun a _ _ => ⟨u, x, 0, _, hspan, Nat.succ_pos i, hi⟩⟩
        -- behind the name there are only actions
        rw [List.getElem?_append_left hi, Use.marks, List.getElem?_cons_succ,
          List.getElem?_map, Option.map_eq_some_iff] at hy
        obtain ⟨_, -, hc⟩ := hy
        cases hc
    · obtain ⟨n, rfl⟩ := Nat.exists_eq_add_of_le hi
      exact (ih n).append_left _
  | call x h ih =>
    match i with
    | 0 => exact ⟨fun _ _ => .inr (.inl rfl), nofun⟩
    | 1 => exact (placed_act rfl).cons _
    | i + 2 => exact ((ih i).cons _).cons _
  | define x h ih =>
    match i with
    | 0 => exact ⟨fun _ _ => .inr (.inr rfl), nofun⟩
    | 1 => exact (placed_act rfl).cons _
    | i + 2 => exact ((ih i).cons _).cons _
  | read ht h ih =>
    cases i with
    | zero =>
      refine ⟨fun y hy => ?_, nofun⟩
      cases hy
      exact absurd rfl ht
    | succ i => exact (ih i).cons _
  | act ha h ih =>
    cases i with
    | zero => exact placed_act ha
    | succ i => exact (ih i).cons _

/-- The last action of a use ends it. -/
theorem Placed.ends (h : Placed w i) (hi : w[i]? = some (.act a)) (huses : usesVariable a = true)
    (ha : a ≠ .checkDefined) :
    ∃ (u : Use) (x : String) (n : Nat), n < i ∧ Span w n (i + 1) (u.marks x) := by
  obtain ⟨u, x, n, j, hspan, hn, hj⟩ := h.action a hi huses
  suffices hend : j = i + 1 from ⟨u, x, n, hn, hend ▸ hspan⟩
  cases u with
  | parameter | global | target =>
    obtain ⟨-, -, rfl⟩ := hspan
    omega
  | value =>
    obtain ⟨-, hcheck, -, rfl⟩ := hspan
    by_contra hne
    obtain rfl : i = n + 1 := by omega
    cases hcheck.symm.trans hi
    exact ha rfl

/-- A name that is read has been looked at before. -/
theorem Placed.read (h : Placed w i) (hi : w[i]? = some (.act .pushId)) :
    ∃ (x : String) (n : Nat), i = n + 2 ∧ Span w n (n + 3) (Expr.name x).marks := by
  obtain ⟨u, x, n, -, hspan⟩ := h.ends hi rfl nofun
  cases u with
  | parameter | global | target =>
    obtain ⟨-, hact, heq⟩ := hspan
    cases heq
    cases hact.symm.trans hi
  | value =>
    obtain ⟨hread, hcheck, hpush, heq⟩ := hspan
    cases heq
    exact ⟨x, n, rfl, hread, hcheck, hpush, rfl⟩

end Places

section Maps

variable {E : Setting} {w : List Mark} {i j : Nat} {x : String}

/-- **The maps at every place.** In the beginning nothing is bound, and then the actions change
them. -/
def Trace.frames (tr : Trace E w) : Nat → List Frame
  | 0 => [Frame.empty false]
  | i + 1 =>
    match w[i]? with
    | some (.act a) => Frame.behind (tr.frames i) a (tr.lexeme i) (tr.state i).memory.nextCell
    | _ => tr.frames i

theorem Trace.frames_act (tr : Trace E w) {a : Action} (h : w[i]? = some (.act a)) :
    tr.frames (i + 1) =
      Frame.behind (tr.frames i) a (tr.lexeme i) (tr.state i).memory.nextCell := by
  rw [frames, h]

theorem Trace.frames_read (tr : Trace E w) {t : Terminal} (h : w[i]? = some (.read t x)) :
    tr.frames (i + 1) = tr.frames i := by
  rw [frames, h]

/-- **The scopes at a place show its maps.** -/
structure Trace.Depicted (tr : Trace E w) (i : Nat) : Prop where
  depicts : Depicts E.config.keywords (tr.frames i) (tr.state i).symbols
  unpublished : Unpublished (tr.state i).symbols (tr.state i).definitions

end Maps

section Machines

variable {c : Config} {source : String} {m : Machine} {constructs : List Construct}
  {frames : List Frame} {a : Action} {rest : List Goal}

/-- A function or a loop that ends leaves a scope around it. -/
theorem Machine.Framed.tail_ne_nil (h : m.Framed c constructs)
    (hd : Depicts c.keywords frames m.generator.symbols) (hg : m.goals = .act a :: rest)
    (ha : a = .exitFunction ∨ a = .loopEnd) : frames.tail ≠ [] := by
  have hlength : frames.length = constructs.length + 1 := by
    have heq := (hd.mirror.forall₂ hd.rooted).length_eq
    rw [show m.generator.symbols.scopes.enclosing m.generator.symbols.currentScope = _ from
      h.inStep.around] at heq
    simpa using heq
  have hopen : constructs ≠ [] := by
    rcases ha with rfl | rfl
    · obtain ⟨s, below, rfl⟩ := h.inStep.exits rest hg
      exact List.cons_ne_nil _ _
    · obtain ⟨s, start, below, rfl⟩ := h.inStep.ends rest hg
      exact List.cons_ne_nil _ _
  have hpos := List.length_pos_iff.2 hopen
  rw [← List.length_pos_iff, List.length_tail]
  omega

/-- A function that ends has its definition. -/
theorem Machine.Framed.definitions_ne_nil (h : m.Framed c constructs)
    (hg : m.goals = .act .exitFunction :: rest) : m.generator.definitions ≠ [] := by
  obtain ⟨header, -, hcalm⟩ := h.secured.calm
  obtain ⟨s, below, rfl⟩ := h.inStep.exits rest hg
  obtain ⟨row, places, hplaces, -⟩ := h.framed.leaveBody hcalm.table.indexed.orderly.nested
  intro hnil
  rw [hnil] at hplaces
  cases hplaces

/-- **Scopes show the maps behind the next action.** -/
theorem Machine.Framed.depicts (h : m.Framed c constructs) (hg : m.goals = .act a :: rest)
    (hd : Depicts c.keywords frames m.generator.symbols)
    (hunpublished : Unpublished m.generator.symbols m.generator.definitions) :
    Ends (perform a m.lastLexeme m.lastLine) m.generator fun _ g' =>
      Depicts c.keywords (Frame.behind frames a m.lastLexeme m.generator.memory.nextCell)
        g'.symbols ∧ Unpublished g'.symbols g'.definitions := by
  obtain ⟨header, hcalm, hheader⟩ := h.secured.perform hg
  have hn := h.naming
  rw [hg] at hn
  exact hd.perform hunpublished hcalm hheader hn.act.1 (h.secured.loops a (hg ▸ List.mem_cons_self))
    (h.tail_ne_nil hd hg) fun ha => h.definitions_ne_nil (ha ▸ hg)

/-- **A derivation begins** where nothing is bound. -/
theorem depicts_begun (c : Config) (source : String) :
    Depicts c.keywords [Frame.empty false] (begun c source).generator.symbols := by
  have hagrees := agrees_begun c source
  refine ⟨hagrees.mirror, hagrees.rooted, fun _ => ?_⟩
  have hreserves : (SymbolTable.ofKeywords c.keywords).ReservesLoops := fun row _ =>
    SymbolTable.cell?_ofKeywords c.keywords row
  rcases generator_begun c source with heq | ⟨-, heq⟩
  · rw [heq]
    exact hreserves
  · rw [heq]
    exact hreserves.record _

end Machines

section Trace

variable {c : Config} {source : String} {w : List Mark} {i j : Nat} {x : String}
  {tr : Trace (.reserving c.keywords) w}

/-- **A trace whose states are those of the derivation of a text,** before every action as well. -/
structure Trace.Tells (tr : Trace (.reserving c.keywords) w) (source : String) : Prop where
  start : tr.state 0 = (begun c source).generator
  comes : ∀ i ≤ w.length, ∃ m, Comes c source (w.take i) m ∧ m.generator = tr.state i ∧
    m.lastLexeme = tr.lexeme i ∧ m.lastLine = tr.line i ∧
      ∀ a, w[i]? = some (.act a) → ∃ rest, m.goals = .act a :: rest

/-- **The scopes show the maps all along.** -/
theorem Trace.Tells.depicted (h : tr.Tells source) : ∀ i ≤ w.length, tr.Depicted i := by
  intro i
  induction i with
  | zero =>
    intro _
    refine ⟨h.start ▸ depicts_begun c source, ?_⟩
    rw [h.start, (stands_begun c source).2.1]
    exact fun _ hd => absurd hd List.not_mem_nil
  | succ i ih =>
    intro hi
    obtain ⟨hdepicts, hunpublished⟩ := ih (Nat.le_of_succ_le hi)
    cases hk : w[i]? with
    | none =>
      have hle := List.getElem?_eq_none_iff.1 hk
      omega
    | some k =>
      cases k with
      | act a =>
        obtain ⟨m, ⟨table, htable, hm⟩, hgen, hlexeme, hline, hgoals⟩ :=
          h.comes i (Nat.le_of_succ_le hi)
        obtain ⟨rest, hg⟩ := hgoals a hk
        obtain ⟨past, hpassed⟩ := reaches_iff_passed.1 hm.reaches
        have hends := (framed_of_passed htable hpassed).depicts hg (hgen ▸ hdepicts)
          (hgen ▸ hunpublished)
        rw [hgen, hlexeme, hline] at hends
        obtain ⟨hdepicts', hunpublished'⟩ := hends _ _ (tr.acts hk).1
        refine ⟨?_, hunpublished'⟩
        rw [tr.frames_act hk]
        exact hdepicts'
      | read t y =>
        obtain ⟨-, hstate⟩ := tr.reads hk
        rcases hstate with hstate | ⟨token, -, hstate⟩
        · refine ⟨?_, hstate ▸ hunpublished⟩
          rw [tr.frames_read hk, hstate]
          exact hdepicts
        · refine ⟨?_, ?_⟩
          · rw [tr.frames_read hk, hstate]
            exact hdepicts.record token
          · rw [hstate]
            exact hunpublished.record token

/-- Behind a name the scopes show the same maps as before. -/
theorem Trace.Tells.name (h : tr.Tells source) (hk : w[i]? = some (nameMark x)) :
    Depicts c.keywords (tr.frames i) (tr.state (i + 1)).symbols := by
  have hdepicts := (h.depicted (i + 1) (List.getElem?_eq_some_iff.1 hk).1).depicts
  rwa [tr.frames_read hk] at hdepicts

/-- A use with one action comes to what that does. -/
theorem Trace.Tells.use_act (h : tr.Tells source) {u : Use} {a : Action} (hu : u.actions = [a])
    (hb : a.behind? = some .identifier)
    (hbehind : ∀ frames new, Frame.behind frames a x new = (u.resolve x new frames).frames)
    (hdoes : ∀ {g : Generator} {line : Nat}, Depicts c.keywords (tr.frames i) g.symbols →
      (c.keywords.contains loopKeyword = true → x ≠ loopKeyword) →
        Ends (perform a x line) g fun _ g' =>
          Depicts c.keywords (u.resolve x g.memory.nextCell (tr.frames i)).frames g'.symbols ∧
            (u.resolve x g.memory.nextCell (tr.frames i)).Done x line g g')
    (hspan : Span w i j (u.marks x)) :
    tr.frames j = (u.resolve x (tr.state i).memory.nextCell (tr.frames i)).frames ∧
      (u.resolve x (tr.state i).memory.nextCell (tr.frames i)).Done x (tr.line (i + 1))
        (tr.state i) (tr.state j) := by
  rw [Use.marks, hu] at hspan
  obtain ⟨hk, ha, rfl⟩ := hspan
  obtain rfl := (tr.reads hk).1
  have hdone := (hdoes (h.name hk) (tr.bindable ha hb) _ _ (tr.acts ha).1).2
  rw [tr.frames_act ha, tr.frames_read hk, hbehind]
  rw [tr.memory_read hk] at hdone ⊢
  exact ⟨rfl, hdone.congr (tr.stack_read hk) (tr.errors_read hk) (tr.memory_read hk)⟩

/-- **A use comes to what the maps say.** -/
theorem Trace.Tells.use (h : tr.Tells source) {u : Use} (hspan : Span w i j (u.marks x)) :
    tr.frames j = (u.resolve x (tr.state i).memory.nextCell (tr.frames i)).frames ∧
      (u.resolve x (tr.state i).memory.nextCell (tr.frames i)).Done x (tr.line (i + 1))
        (tr.state i) (tr.state j) := by
  cases u with
  | parameter => exact h.use_act rfl rfl (fun _ _ => rfl) (fun hd hn => hd.addParameter _ hn) hspan
  | global => exact h.use_act rfl rfl (fun _ _ => rfl) (fun hd hn => hd.bindGlobal hn) hspan
  | target => exact h.use_act rfl rfl (fun _ _ => rfl) (fun hd hn => hd.assignTo _ hn) hspan
  | value =>
    obtain ⟨hk, hcheck, hpush, rfl⟩ := hspan
    obtain rfl := (tr.reads hk).1
    -- first the name is looked up, which only reports it
    obtain ⟨hp, hlexeme⟩ := tr.acts hcheck
    obtain ⟨hstate, hreports⟩ := (h.name hk).requireCell _ _ hp
    have hstack : (tr.state (i + 1 + 1)).stack = (tr.state i).stack := by
      rw [hstate]
      exact tr.stack_read hk
    have hmemory : (tr.state (i + 1 + 1)).memory = (tr.state i).memory := by
      rw [hstate]
      exact tr.memory_read hk
    have hdepicts : Depicts c.keywords (tr.frames i) (tr.state (i + 1 + 1)).symbols := by
      rw [hstate]
      exact h.name hk
    have hn := tr.bindable hpush rfl
    have hp' := (tr.acts hpush).1
    rw [hlexeme] at hn hp'
    have hdone := (hdepicts.readName (tr.line (i + 1)) hn _ _ hp').2
    rw [tr.errors_read hk] at hreports
    rw [tr.frames_act hpush, tr.frames_act hcheck, tr.frames_read hk, hlexeme, hmemory]
    rw [hmemory] at hdone
    exact ⟨rfl, hdone.reported hstack hmemory hreports⟩

/-- **A text that spells a block** has a trace that tells its derivation. -/
theorem tells_of_spelled {o : Outcome} (h : parse c source = .ok o) {b : Block}
    (hb : ∀ s ∈ b, s.Graded) (hs : Mark.Spelled (blockMarks b) o.scan.tokens) :
    ∃ tr : Trace (.reserving c.keywords) (blockMarks b),
      tr.Tells source ∧ tr.state (blockMarks b).length = o.generator := by
  obtain ⟨-, tr, hstart, hend, hcomes⟩ := trace_of_spelled h hb hs
  exact ⟨tr, ⟨hstart, hcomes⟩, hend⟩

/-- The states of a derivation are settled. -/
theorem Trace.Tells.settled (h : tr.Tells source) (hc : c.validate = .ok ()) {i : Nat}
    (hi : i ≤ w.length) : Settled c (tr.state i) := by
  obtain ⟨m, hm, hgen, -⟩ := h.comes i hi
  exact hgen ▸ settled_of_comes hc hm

/-- **Names stand for what the maps say,** all along a trace. -/
structure Trace.Resolves {E : Setting} (tr : Trace E w) : Prop where
  /-- There is one map for each open scope, with the same cells. -/
  scopes : ∀ i ≤ w.length, List.Forall₂ (Shows (tr.state i).symbols) (tr.frames i)
    ((tr.state i).symbols.scopes.enclosing (tr.state i).currentScope)
  /-- Names are looked up alike in scopes and in maps. -/
  found : ∀ i ≤ w.length, ∀ x, (tr.state i).readCell? x = Frame.nearest? (tr.frames i) x ∧
    (tr.state i).ownCell? x = Frame.own? (tr.frames i) x
  /-- A name is used as a variable, called or defined; and only a use reads or binds it. -/
  placed : ∀ i, Placed w i
  /-- A use comes to what the maps before it say. -/
  uses : ∀ (u : Use) (x : String) (i j : Nat), Span w i j (u.marks x) →
    tr.frames j = (u.resolve x (tr.state i).memory.nextCell (tr.frames i)).frames ∧
      (u.resolve x (tr.state i).memory.nextCell (tr.frames i)).Done x (tr.line (i + 1))
        (tr.state i) (tr.state j)

/-- **Every use of a name in an accepted text is resolved by the maps around it,** whatever errors
the program has. Its cell is the one that they say, or else a new one, which is that of no name
in any of them and of no function. -/
theorem resolution_of_parse {config : Config} {source : String} {o : Outcome}
    (h : parse config source = .ok o) (he : o.syntaxErrors = []) :
    ∃ (b : Block) (tr : Trace (.reserving config.keywords) (blockMarks b)),
      (∀ s ∈ b, s.Graded) ∧ Mark.Spelled (blockMarks b) o.scan.tokens ∧
      tr.Tells source ∧ tr.state (blockMarks b).length = o.generator ∧ tr.Resolves ∧
      (config.validate = .ok () → ∀ i ≤ (blockMarks b).length, ∀ cell m,
        (tr.state i).memory.takeCell = .ok (cell, m) →
          Untaken (tr.frames i) (tr.state i) cell) := by
  obtain ⟨b, -, hgraded, hs, -⟩ := trace_of_parse h he
  obtain ⟨-, tr, hstart, hend, hcomes⟩ := trace_of_spelled h hgraded hs
  have htells : tr.Tells source := ⟨hstart, hcomes⟩
  have hdepicts := fun i hi => (htells.depicted i hi).depicts
  refine ⟨b, tr, hgraded, hs, htells, hend, ⟨?_, ?_, placed_of_inUses (inUses_block b), ?_⟩, ?_⟩
  · exact fun i hi => (hdepicts i hi).mirror.forall₂ (hdepicts i hi).rooted
  · exact fun i hi x => ⟨(hdepicts i hi).readCell?, (hdepicts i hi).ownCell?⟩
  · exact fun u x i j hspan => htells.use hspan
  · intro hvalid i hi cell m ht
    obtain ⟨m₁, hm₁, hgen, -⟩ := hcomes i hi
    exact (hdepicts i hi).untaken (hgen ▸ settled_of_comes hvalid hm₁)
      ((config.validate_eq_ok_iff).1 hvalid).1 ht

/-- A text with a function of the name of a variable, which assigns to a global name and to others of
its own, and in which two names stand for nothing. -/
theorem resolution_of_shadowed :
    let source := "x = 1 ; f = 2 ; def f ( a ) : global x ; f = x ; while ( f < a ) z = f ; x [ 0 ] = z ; ; print ( z ) ; global q ; return f ; ; y = f ;"
    ∃ o, parse .standard source = .ok o ∧ o.syntaxErrors = [] ∧
      o.generator.errors = #[⟨1, .undefined "z"⟩, ⟨1, .undefined "q"⟩] ∧
      ∃ (b : Block) (tr : Trace (.reserving Config.standard.keywords) (blockMarks b)),
        Mark.Spelled (blockMarks b) o.scan.tokens ∧ tr.Resolves ∧
          Frame.nearest? (tr.frames (blockMarks b).length) "f" = some 104 ∧
            Frame.nearest? (tr.frames (blockMarks b).length) "z" = none := by
  intro source
  have hrun : (parse .standard source).toOption.map (fun o => (o.syntaxErrors, o.generator.errors,
      o.generator.readCell? "f", o.generator.readCell? "z")) =
        some ([], #[⟨1, .undefined "z"⟩, ⟨1, .undefined "q"⟩], some 104, none) := by
    rw [parse_eq, Grammar.table_eq_ok]
    decide +kernel
  cases ho : parse .standard source with
  | error e =>
    rw [ho] at hrun
    cases hrun
  | ok o =>
    rw [ho] at hrun
    simp only [Except.toOption, Option.map_some, Option.some.injEq, Prod.mk.injEq] at hrun
    obtain ⟨hnone, herrors, hf, hz⟩ := hrun
    obtain ⟨b, tr, -, hs, -, hend, hresolves, -⟩ := resolution_of_parse ho hnone
    have hfound := fun x => (hresolves.found _ (Nat.le_refl _) x).1
    rw [hend] at hfound
    exact ⟨o, rfl, hnone, herrors, b, tr, hs, hresolves, (hfound "f").symm.trans hf,
      (hfound "z").symm.trans hz⟩

end Trace

end OnePass.Derivation
