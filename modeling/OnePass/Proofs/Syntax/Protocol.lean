import OnePass.Proofs.Derivation.Unfailing
import OnePass.Proofs.Emission.Exchange
import OnePass.Proofs.Syntax.Compiling

/-!
# The stack protocol of accepted texts

Actions know nothing of one another but what lies on the stack. Along the derivation of an
accepted text each finds there what was left for it, whatever the errors of the program are,
and in the end nothing is left over.

* `itemsBehind`: the items that lie ready behind marks.
* `Trace.exchanges`: marks that fit together take what is there and leave what they do.
* `Trace.Serves`: every action finds what it takes. `Trace.serves`: it does.
* `stack_of_span`: what phrases leave behind.
* `protocol_of_parse`: the protocol of an accepted text.
-/

namespace OnePass.Derivation

open Emission Names
open Grammar (Action Item Mark Shape Shaped Terminal counted productions)
open Machine

/-- **The items that lie ready behind marks,** if these lay ready before. -/
def itemsBehind (items : List Item) : List Mark → List Item
  | [] => items
  | .read .. :: w => itemsBehind items w
  | .act a :: w => itemsBehind (a.leaves ++ items.drop a.takes.length) w

/-- The symbols of a call: a name with its arguments. -/
def callSymbols : List Grammar.Symbol :=
  [.terminal .identifier, .action .beginCall, .terminal .leftParen, .nonterminal .arguments,
    .terminal .rightParen, .action .dispatch]

theorem Span.prefix_drop {w v : List Mark} {i j : Nat} (h : Span w i j v) : v <+: w.drop i := by
  induction v generalizing i with
  | nil => exact List.nil_prefix
  | cons k v ih =>
    obtain ⟨hk, hrest⟩ := h
    obtain ⟨hi, rfl⟩ := List.getElem?_eq_some_iff.1 hk
    rw [List.drop_eq_getElem_cons hi]
    exact List.cons_prefix_cons.2 ⟨rfl, ih hrest⟩

/-- The marks before a place stand between it and the beginning. -/
theorem span_take {w : List Mark} {i : Nat} (hi : i ≤ w.length) : Span w 0 i (w.take i) := by
  have hwhole := span_self w
  rw [← List.take_append_drop i w, span_append, List.take_append_drop] at hwhole
  obtain ⟨n, hfirst, -⟩ := hwhole
  have heq := hfirst.eq_add
  rw [List.length_take, Nat.min_eq_left hi, Nat.zero_add] at heq
  exact heq ▸ hfirst

section Items

variable {items items' rest : List Item} {last last' : Option Terminal} {w : List Mark} {a : Action}

/-- Marks that fit together leave just these items. -/
theorem itemsBehind_of_shaped (h : Shaped ⟨last, items⟩ w ⟨last', items'⟩) :
    itemsBehind items w = items' := by
  generalize hs : (⟨last, items⟩ : Shape) = s at h
  generalize hs' : (⟨last', items'⟩ : Shape) = s' at h
  induction h generalizing last items with
  | nil =>
    cases hs
    cases hs'
    rfl
  | read x _ ih =>
    cases hs
    exact ih rfl hs'
  | @act a _ rest w _ hb _ ih =>
    cases hs
    rw [itemsBehind, List.drop_left]
    exact ih rfl hs'

/-- **An action in the midst of marks that fit together** finds what it takes. -/
theorem items_of_shaped (h : Shaped ⟨last, items⟩ w ⟨last', items'⟩) {i : Nat}
    (ha : w[i]? = some (.act a)) : ∃ rest, itemsBehind items (w.take i) = a.takes ++ rest ∧
      itemsBehind items (w.take (i + 1)) = a.leaves ++ rest := by
  obtain ⟨hi, hget⟩ := List.getElem?_eq_some_iff.1 ha
  have hsplit : w = w.take i ++ .act a :: w.drop (i + 1) := by
    rw [← hget, ← List.drop_eq_getElem_cons hi, List.take_append_drop]
  have hnext : w.take (i + 1) = w.take i ++ [.act a] := by
    rw [List.take_add_one, ha]
    rfl
  have h' := h
  rw [hsplit] at h'
  obtain ⟨⟨last₁, items₁⟩, hfirst, hrest⟩ := h'.of_append
  cases hrest with
  | @act _ _ rest _ _ hb hrest =>
    refine ⟨rest, itemsBehind_of_shaped hfirst, ?_⟩
    rw [hnext]
    exact itemsBehind_of_shaped (hfirst.append (.act hb (.nil _)))

end Items

namespace Trace

variable {E : Setting} {w v : List Mark} {tr : Trace E w} {i j most : Nat} {a : Action}
  {items items' : List Item} {last last' : Option Terminal} {top below : List Target.Operand}
  {calls pending : List String}

/-- Reading a token leaves operands and pending calls alone. -/
theorem stands_read {t : Terminal} {x : String} {st : OperandStack}
    (h : w[i]? = some (.read t x)) (hg : (tr.state i).Stands st calls) :
    (tr.state (i + 1)).Stands st calls := by
  rcases (tr.reads h).2 with heq | ⟨token, -, heq⟩
  · rw [heq]
    exact hg
  · rw [heq]
    exact ⟨hg.stack, hg.calls⟩

/-- The slots before a mark are among those at the end. -/
theorem slots_le (tr : Trace E w) (hij : i ≤ j) (hj : j ≤ w.length) : tr.slots i ≤ tr.slots j :=
  (tr.extends_le hij hj).size

/-- **Marks that fit together exchange what they take for what they leave,** whatever lies below. -/
theorem exchanges (hspan : Span w i j v) (hs : Shaped ⟨last, items⟩ v ⟨last', items'⟩)
    (hl : Lies most (tr.slots i) items top calls)
    (hg : (tr.state i).Stands (top ++ below) (calls ++ pending))
    (hmost : most + counted v < 2 ^ 63) (hslots : tr.slots w.length < 2 ^ 63) :
    ∃ top' calls', Lies (most + counted v) (tr.slots j) items' top' calls' ∧
      (tr.state j).Stands (top' ++ below) (calls' ++ pending) := by
  induction v generalizing i last items top calls most with
  | nil =>
    obtain rfl : i = j := hspan
    cases hs
    exact ⟨top, calls, hl, hg⟩
  | cons k v ih =>
    obtain ⟨hk, hrest⟩ := hspan
    have hlt := (List.getElem?_eq_some_iff.1 hk).1
    cases hs with
    | @read t x _ _ _ _ hs =>
      have hsame : tr.slots (i + 1) = tr.slots i := tr.slots_read hk
      rw [← hsame] at hl
      exact ih hrest hs hl (tr.stands_read hk hg) hmost
    | @act a _ rest _ _ hb hs =>
      rw [counted_act, ← Nat.add_assoc] at hmost ⊢
      obtain ⟨front, back, c, d, rfl, rfl, hfront, hback⟩ := hl.of_append
      rw [List.append_assoc, List.append_assoc] at hg
      have hle := tr.slots_le (Nat.le_of_lt hlt) (Nat.le_refl _)
      obtain ⟨top', calls', hl', hg'⟩ := tr.of_ends hk
        (exchanges_perform hfront hg (by omega) (by omega))
      have hback' := hback.mono (Nat.le_add_right most (counts a))
        (tr.slots_le (Nat.le_succ i) hlt)
      rw [← List.append_assoc, ← List.append_assoc] at hg'
      exact ih hrest hs (hl'.append hback') hg' hmost

/-- **Every action is served:** before each mark the stack and the pending calls are those of the items
that lie ready there. An action finds what it takes on top, and what it leaves comes in the place of
that. Whatever else lay below would stay there, so nothing but what it takes is ever popped. -/
structure Serves (tr : Trace E w) : Prop where
  lies : ∀ i ≤ w.length, Lies (counted (w.take i)) (tr.slots i) (itemsBehind [] (w.take i))
    (tr.state i).stack (tr.state i).pendingCalls
  acts : ∀ {i : Nat} {a : Action}, w[i]? = some (.act a) → ∃ rest top below calls pending,
    itemsBehind [] (w.take i) = a.takes ++ rest ∧
    itemsBehind [] (w.take (i + 1)) = a.leaves ++ rest ∧
    Lies (counted (w.take i)) (tr.slots i) a.takes top calls ∧
    Lies (counted (w.take i)) (tr.slots i) rest below pending ∧
    (tr.state i).Stands (top ++ below) (calls ++ pending) ∧
    (∃ top' calls', Lies (counted (w.take (i + 1))) (tr.slots (i + 1)) a.leaves top' calls' ∧
      (tr.state (i + 1)).Stands (top' ++ below) (calls' ++ pending)) ∧
    ∀ below' pending', Ends (perform a (tr.lexeme i) (tr.line i))
      { tr.state i with stack := top ++ below', pendingCalls := calls ++ pending' } fun _ g =>
        ∃ top' calls', Lies (counted (w.take (i + 1))) g.programNext a.leaves top' calls' ∧
          g.Stands (top' ++ below') (calls' ++ pending')

theorem counted_take_le (w : List Mark) (i : Nat) : counted (w.take i) ≤ counted w :=
  (List.take_sublist i w).countP_le

/-- **Along marks that fit together every action is served.** -/
theorem serves (hs : Shaped ⟨last, []⟩ w ⟨last', items'⟩) (hg : (tr.state 0).Stands [] [])
    (hmost : counted w < 2 ^ 63) (hslots : tr.slots w.length < 2 ^ 63) : tr.Serves := by
  have hlies : ∀ i ≤ w.length, Lies (counted (w.take i)) (tr.slots i) (itemsBehind [] (w.take i))
      (tr.state i).stack (tr.state i).pendingCalls := by
    intro i hi
    have hspan : Span w 0 i (w.take i) := span_take hi
    have hs' := hs
    rw [← List.take_append_drop i w] at hs'
    obtain ⟨⟨last₁, items₁⟩, hfirst, -⟩ := hs'.of_append
    have hcount := counted_take_le w i
    have hempty : (tr.state 0).Stands ([] ++ []) ([] ++ []) := hg
    have hnone : Lies 0 (tr.slots 0) [] [] [] := lies_nil
    obtain ⟨top, calls, hl, hstands⟩ := exchanges hspan hfirst hnone hempty (by omega) hslots
    rw [List.append_nil, List.append_nil] at hstands
    rw [Nat.zero_add] at hl
    rw [itemsBehind_of_shaped hfirst, hstands.stack, hstands.calls]
    exact hl
  refine ⟨hlies, fun {i a} ha => ?_⟩
  have hlt := (List.getElem?_eq_some_iff.1 ha).1
  obtain ⟨rest, htakes, hleaves⟩ := items_of_shaped hs ha
  have hl := hlies i (Nat.le_of_lt hlt)
  rw [htakes] at hl
  obtain ⟨top, below, calls, pending, hstack, hcalls, htop, hbelow⟩ := hl.of_append
  have hsucc : counted (w.take (i + 1)) = counted (w.take i) + counts a := by
    rw [List.take_add_one, ha, Option.toList_some, counted, List.countP_append]
    exact congrArg (counted (w.take i) + ·) (counted_act a [])
  have hcount := counted_take_le w (i + 1)
  have hle := tr.slots_le (Nat.le_of_lt hlt) (Nat.le_refl _)
  have hframe : ∀ (g : Generator) below' pending',
      g.Stands (top ++ below') (calls ++ pending') →
        Ends (perform a (tr.lexeme i) (tr.line i)) g fun _ g' => ∃ top' calls',
          Lies (counted (w.take (i + 1))) g'.programNext a.leaves top' calls' ∧
            g'.Stands (top' ++ below') (calls' ++ pending') := by
    intro g below' pending' hg'
    rw [hsucc]
    exact exchanges_perform htop hg' (by omega) (by omega)
  refine ⟨rest, top, below, calls, pending, htakes, hleaves, htop, hbelow, ⟨hstack, hcalls⟩, ?_, ?_⟩
  · exact tr.of_ends ha (hframe _ below pending ⟨hstack, hcalls⟩)
  · exact fun below' pending' => hframe _ below' pending' ⟨rfl, rfl⟩

/-- **What a phrase leaves behind:** all that lay on the stack before, and on top of it its items. -/
theorem stack_of_span (hspan : Span w i j v) {symbols : List Grammar.Symbol}
    (hd : Grammar.Derives productions symbols v) {after : Shape}
    (hthrough : Shape.through ⟨none, []⟩ symbols = some after) (hmost : counted w < 2 ^ 63)
    (hslots : tr.slots w.length < 2 ^ 63) : ∃ top calls,
      Lies (counted v) (tr.slots j) after.items top calls ∧
        (tr.state j).stack = top ++ (tr.state i).stack := by
  have hlast : (none : Option Terminal) = none ∨ (none : Option Terminal) = none := .inl rfl
  obtain ⟨last, -, hs⟩ := Grammar.shaped_through hd hthrough hlast []
  rw [List.append_nil, List.append_nil] at hs
  have hcount := hspan.prefix_drop.sublist.trans (List.drop_sublist i w)
  have hle : counted v ≤ counted w := hcount.countP_le
  have hbelow : (tr.state i).Stands ([] ++ (tr.state i).stack) ([] ++ (tr.state i).pendingCalls) :=
    ⟨rfl, rfl⟩
  have hnone : Lies 0 (tr.slots i) [] [] [] := lies_nil
  obtain ⟨top, calls, hl, hg⟩ := exchanges hspan hs hnone hbelow (by omega) hslots
  rw [Nat.zero_add] at hl
  exact ⟨top, calls, hl, hg.stack⟩

end Trace

section Ends

variable {config : Config} {source : String} {o : Outcome}

/-- Nothing lies ready in the beginning. -/
theorem stands_begun (config : Config) (source : String) :
    (begun config source).generator.Stands [] [] ∧
      (begun config source).generator.definitions = [] ∧
      (begun config source).generator.currentScope = Scopes.outermost := by
  rcases generator_begun config source with heq | ⟨-, heq⟩
  · rw [heq]
    exact ⟨⟨rfl, rfl⟩, rfl, rfl⟩
  · rw [heq]
    refine ⟨⟨rfl, rfl⟩, rfl, ?_⟩
    exact congrArg Scopes.current (SymbolTable.scopes_record _ _)

/-- No loop is open in the beginning. -/
theorem records_begun (config : Config) (source : String) :
    (Setting.reserving config.keywords).Records (begun config source).generator.symbols .empty := by
  have hwords : (Setting.reserving config.keywords).Records
      (SymbolTable.ofKeywords config.keywords) .empty := by
    unfold Setting.Records
    split
    · exact loops?_ofKeywords ‹_›
    · rfl
  rcases generator_begun config source with heq | ⟨hfits, heq⟩
  · rw [heq]
    exact hwords
  · rw [heq]
    have hquiet := quiet_record (E := .reserving config.keywords) hfits (Generator.ofConfig config)
    exact (hquiet.steady rfl ⟨_, hwords⟩).records _ hwords

/-- **No jump waits for the end of a loop** behind an accepted text. Where the loop keyword is not
reserved there never was one. -/
theorem loops_of_parse (h : parse config source = .ok o) (he : o.syntaxErrors = [])
    (hsource : source.length < 2 ^ 63) (hsize : o.generator.programNext < 2 ^ 63) :
    ∀ record, o.generator.symbols.loops? = some record →
      record.breaks = [] ∧ record.continues = [] := by
  intro record hrecord
  by_cases hk : config.keywords.contains loopKeyword = true
  · obtain ⟨_, _, _, -, -, -, -, -, -, hpasses⟩ := exists_laid h he hsource (.refl _ _) hsize
    have hend := hpasses.records .empty (records_begun config source)
    have hloops := Syntax.loops?_of_records hk hend
    rw [hrecord, Option.some.injEq] at hloops
    rw [hloops, Syntax.awaiting_none]
    exact ⟨rfl, rfl⟩
  · rw [Bool.not_eq_true] at hk
    obtain ⟨table, m, htable, hm, -, rfl⟩ := reaches_of_parse h
    obtain ⟨header, -, hcalm⟩ := ((secured_begun config source).reaches htable hm).calm
    obtain ⟨row, -, hrow⟩ := Option.bind_eq_some_iff.1 hrecord
    obtain ⟨meaning, hmeaning, hasLoops⟩ := Option.bind_eq_some_iff.1 hrow
    rcases meaning with cell | info | found
    · cases hasLoops
      exact ⟨rfl, rfl⟩
    · cases hasLoops
    · exact absurd hmeaning (hcalm.table.recordless hk row found)

/-- **The stack protocol of an accepted text,** whatever errors its program has. Every action is
served; statements leave the stack as it was, values and calls leave one operand more; and in the
end there is nothing left: no operand, no pending call, no definition, no scope and no jump. -/
theorem protocol_of_parse (h : parse config source = .ok o) (he : o.syntaxErrors = [])
    (hsource : source.length < 2 ^ 63) (hsize : o.generator.programNext < 2 ^ 63) :
    ∃ (w : List Mark) (tr : Trace (.reserving config.keywords) w),
      Grammar.Derives productions [.nonterminal Grammar.start] w ∧
      Mark.Spelled w o.scan.tokens ∧
      tr.state 0 = (begun config source).generator ∧ tr.state w.length = o.generator ∧
      (∀ i ≤ w.length, ∃ m, Comes config source (w.take i) m ∧ m.generator = tr.state i) ∧
      tr.Serves ∧
      (∀ i j v, Span w i j v →
        (Grammar.Derives productions [.nonterminal .statement] v ∨
          Grammar.Derives productions [.nonterminal .statements] v) →
        (tr.state j).stack = (tr.state i).stack) ∧
      (∀ i j v, Span w i j v →
        (Grammar.Derives productions [.nonterminal .expression] v ∨
          Grammar.Derives productions [.nonterminal .assigned] v ∨
          Grammar.Derives productions callSymbols v) →
        ∃ operand, (tr.state j).stack = operand :: (tr.state i).stack) ∧
      o.generator.stack = [] ∧ o.generator.pendingCalls = [] ∧ o.generator.definitions = [] ∧
      o.generator.currentScope = Scopes.outermost ∧
      ∀ record, o.generator.symbols.loops? = some record →
        record.breaks = [] ∧ record.continues = [] := by
  obtain ⟨table, w, m, htable, hd, hs, hw, -, -, -, hgen, -⟩ := along_of_parse h he
  obtain ⟨last, hshaped⟩ := Grammar.shaped_of_derives hd
  obtain ⟨tr, -, -, hstart, hend, hcomes⟩ := exists_trace hw (scanning_begun config source) hshaped
    ⟨fun hc => (by cases hc), fun hc => by cases hc⟩
  obtain ⟨hbegun, hdefinitions, hscope⟩ := stands_begun config source
  have hcounted : counted w < 2 ^ 63 := Nat.lt_of_le_of_lt (counted_le_length h hd hs) hsource
  have hslots : tr.slots w.length < 2 ^ 63 := by
    rw [Trace.slots, hend, ← hgen]
    exact hsize
  have hserves : tr.Serves := Trace.serves hshaped (hstart ▸ hbegun) hcounted hslots
  have hfinal := hserves.lies w.length (Nat.le_refl _)
  rw [List.take_length, itemsBehind_of_shaped hshaped, hend, ← hgen] at hfinal
  obtain ⟨_, _, _, -, -, -, -, -, -, hpasses⟩ := exists_laid h he hsource (.refl _ _) hsize
  refine ⟨w, tr, hd, hs, hstart, hend.trans hgen.symm, fun i hi => ?_, hserves, ?_, ?_, hfinal.1,
    hfinal.2, ?_, hpasses.current.trans hscope, loops_of_parse h he hsource hsize⟩
  · obtain ⟨m₁, hm₁, hgen₁, -⟩ := hcomes i hi
    exact ⟨m₁, ⟨table, htable, hm₁⟩, hgen₁⟩
  · have hnone : ∀ {i j v symbols last}, Span w i j v → Grammar.Derives productions symbols v →
        Shape.through ⟨none, []⟩ symbols = some ⟨last, []⟩ →
          (tr.state j).stack = (tr.state i).stack := by
      intro i j v symbols last hspan hv hthrough
      obtain ⟨top, calls, ⟨rfl, -⟩, hstack⟩ :=
        Trace.stack_of_span hspan hv hthrough hcounted hslots
      exact hstack
    rintro i j v hspan (hv | hv)
    · exact hnone hspan hv rfl
    · exact hnone hspan hv rfl
  · have hone : ∀ {i j v symbols last}, Span w i j v → Grammar.Derives productions symbols v →
        Shape.through ⟨none, []⟩ symbols = some ⟨last, [.value]⟩ →
          ∃ operand, (tr.state j).stack = operand :: (tr.state i).stack := by
      intro i j v symbols last hspan hv hthrough
      obtain ⟨top, calls, ⟨operand, rest, rfl, rfl, -⟩, hstack⟩ :=
        Trace.stack_of_span hspan hv hthrough hcounted hslots
      exact ⟨operand, hstack⟩
    rintro i j v hspan (hv | hv | hv)
    · exact hone hspan hv rfl
    · exact hone hspan hv rfl
    · exact hone hspan hv rfl
  · rw [hpasses.definitions, hdefinitions]
    rfl

/-- A loop, a call and a list in a program whose names are not defined. -/
theorem protocol_nested :
    let source := "def f ( a , b ) : while ( a < b ) if a == g ( b , 2 ** a ) : break ; ; ; ; x = [ 1 , y ] ;"
    ∃ o, parse .standard source = .ok o ∧ o.syntaxErrors = [] ∧ source.length < 2 ^ 63 ∧
      o.generator.programNext < 2 ^ 63 ∧ o.generator.errors.size = 2 ∧
      ∃ (w : List Mark) (tr : Trace (.reserving Config.standard.keywords) w),
        Mark.Spelled w o.scan.tokens ∧ tr.Serves ∧ o.generator.stack = [] ∧
          o.generator.pendingCalls = [] := by
  intro source
  have h : (parse .standard source).toOption.map (fun o =>
      (o.syntaxErrors, o.generator.programNext, o.generator.errors.size)) = some ([], 19, 2) := by
    rw [parse_eq, Grammar.table_eq_ok]
    decide +kernel
  have hsource : source.length < 2 ^ 63 := by decide
  cases ho : parse .standard source with
  | error e =>
    rw [ho] at h
    cases h
  | ok o =>
    rw [ho] at h
    simp only [Except.toOption, Option.map_some, Option.some.injEq, Prod.mk.injEq] at h
    obtain ⟨hnone, hnext, herrors⟩ := h
    have hsize : o.generator.programNext < 2 ^ 63 := by
      rw [hnext]
      decide
    obtain ⟨w, tr, -, hs, -, -, -, hserves, -, -, hstack, hcalls, -⟩ :=
      protocol_of_parse ho hnone hsource hsize
    exact ⟨o, rfl, hnone, hsource, hsize, herrors, w, tr, hs, hserves, hstack, hcalls⟩

end Ends

end OnePass.Derivation
