import OnePass.Proofs.Names.Selection

/-!
# Lookups in any table

Rows are added and retired and come to mean something else, and scopes open and close. Whatever a
table is asked for and in whatever order, its scopes are nested, those without an end are the
current one and the scopes around it, and every row lies in the range of its scope. So names are
looked up by scopes: no row is missed, and none of another scope is found.

* `Scopes.Around`: the scopes around a scope. `Scopes.around_iff`: the walk outward meets them.
* `SymbolTable.Ranged`: scopes and rows in their ranges. `Ranged.mem_ownRows`: what they are for.
* `SymbolTable.Declares`, `Ranged.latestIn_iff`, `Ranged.resolve_iff`: the row of a name.
* `Ranged.visibleFunctions`: the functions of a name, in their order.
* `SymbolTable.Request`, `SymbolTable.after`: what a table can be asked for.
* `scoped_of_requests`: **any table looks names up by scopes.**
-/

namespace OnePass.Names

open Lexical (TokenKind)

namespace Scopes

/-- **A scope that lies so many scopes out from another one,** which is itself at no distance. -/
inductive Around (t : Scopes) : Nat → Nat → Nat → Prop
  | here {s : Nat} (h : s < t.all.size) : Around t s 0 s
  | out {s n a p : Nat} {scope : Scope} (hs : t.all[s]? = some scope)
      (hp : scope.parent = some p) (h : Around t p n a) : Around t s (n + 1) a

variable {t : Scopes} {s n a p endRow : Nat} {scope : Scope} {region : Region}

theorem enclosing_of_parent (h : t.Nested) (hs : t.all[s]? = some scope)
    (hp : scope.parent = some p) : t.enclosing s = s :: t.enclosing p := by
  rw [enclosing.eq_def, hs]
  dsimp only
  rw [hp]
  dsimp only
  rw [if_pos (h.parents s scope p hs hp)]

theorem enclosing_of_root (hs : t.all[s]? = some scope) (hp : scope.parent = none) :
    t.enclosing s = [s] := by
  rw [enclosing.eq_def, hs]
  dsimp only
  rw [hp]

/-- **The walk outward** meets the scopes around, one after the other. -/
theorem around_iff (h : t.Nested) : t.Around s n a ↔ (t.enclosing s)[n]? = some a := by
  constructor
  · intro ha
    induction ha with
    | @here s hs =>
      rw [enclosing.eq_def, Array.getElem?_eq_getElem hs]
      rfl
    | @out s n a p scope hs hp _ ih =>
      rw [enclosing_of_parent h hs hp, List.getElem?_cons_succ]
      exact ih
  · intro ha
    induction n generalizing s with
    | zero =>
      cases hs : t.all[s]? with
      | none =>
        rw [enclosing.eq_def, hs] at ha
        cases ha
      | some scope =>
        rw [enclosing.eq_def, hs] at ha
        cases ha
        exact .here (Array.getElem?_eq_some_iff.1 hs).1
    | succ n ih =>
      cases hs : t.all[s]? with
      | none =>
        rw [enclosing.eq_def, hs] at ha
        cases ha
      | some scope =>
        cases hp : scope.parent with
        | none =>
          rw [enclosing_of_root hs hp] at ha
          cases ha
        | some p =>
          rw [enclosing_of_parent h hs hp, List.getElem?_cons_succ] at ha
          exact .out hs hp (ih ha)

theorem exists_around_iff (h : t.Nested) : (∃ n, t.Around s n a) ↔ a ∈ t.enclosing s := by
  simp only [around_iff h, List.mem_iff_getElem?]

/-- The scopes around a scope do not change when another one opens or the current one closes. -/
theorem enclosing_enter (hs : s < t.all.size) (region : Region) (firstRow : Nat) :
    (t.enter region firstRow).enclosing s = t.enclosing s :=
  enclosing_congr fun i hi => by
    rw [Scopes.enter, Array.getElem?_push, if_neg (Nat.ne_of_lt (Nat.lt_of_le_of_lt hi hs))]

theorem enclosing_leave (t : Scopes) (endRow s : Nat) :
    (t.leave endRow).enclosing s = t.enclosing s :=
  enclosing_congr fun i _ => parent_leave t endRow i

/-- **Closing a scope:** the outermost one stays as it is. Any other gets its end, and the scope
around it is current. -/
theorem leave_cases (h : t.Nested) (endRow : Nat) : t.leave endRow = t ∨
    ∃ scope p, t.all[t.current]? = some scope ∧ scope.parent = some p ∧
      t.leave endRow = ⟨t.all.setIfInBounds t.current { scope with endRow := some endRow }, p⟩ := by
  unfold Scopes.leave
  rw [Array.getElem?_eq_getElem h.current]
  dsimp only
  split
  · rename_i p hp
    exact .inr ⟨_, p, rfl, hp, rfl⟩
  · exact .inl rfl

end Scopes

namespace SymbolTable

variable {t t' : SymbolTable} {s i row : Nat} {x : String} {withCell outward : Bool}
  {kind : TokenKind} {m : Meaning} {region : Region}

section Ranges

/-- **A table with scopes and rows in their ranges.** The scopes that have not ended are the current
one and those around it, and every row lies within the range of its scope. -/
structure Ranged (t : SymbolTable) : Prop extends Orderly t where
  unended : ∀ (s : Nat) (scope : Scope), t.scopes.all[s]? = some scope →
    (scope.endRow = none ↔ s ∈ t.scopes.enclosing t.currentScope)
  begins : ∀ (s : Nat) (scope : Scope), t.scopes.all[s]? = some scope → scope.firstRow ≤ t.rows.size
  within : ∀ (row s : Nat) (scope : Scope), t.scope? row = some s → t.scopes.all[s]? = some scope →
    scope.firstRow ≤ row ∧ row < scope.endRow.getD t.rows.size

/-- **The rows in the range of a scope that belong to it** are all that belong to it. -/
theorem Ranged.mem_ownRows (h : t.Ranged) : i ∈ t.ownRows s ↔ t.scope? i = some s := by
  refine ⟨scope?_of_mem_ownRows, fun hrow => ?_⟩
  have hlt := h.placed i s hrow
  obtain ⟨hfirst, hend⟩ := h.within i s _ hrow (Array.getElem?_eq_getElem hlt)
  rw [ownRows, Array.getElem?_eq_getElem hlt]
  dsimp only
  rw [List.mem_filter, List.mem_reverse, List.mem_range'_1]
  exact ⟨by omega, beq_iff_eq.2 hrow⟩

/-- Names and meanings have nothing to do with ranges. -/
theorem Ranged.congr (h : t.Ranged) (hscopes : t'.scopes = t.scopes)
    (hsize : t'.rows.size = t.rows.size) (hscope : ∀ i, t'.scope? i = t.scope? i) : t'.Ranged where
  nested := hscopes ▸ h.nested
  placed row s hs := by
    rw [hscopes]
    exact h.placed row s ((hscope row).symm.trans hs)
  unended s scope hs := by
    rw [currentScope, hscopes]
    exact h.unended s scope (hscopes ▸ hs)
  begins s scope hs := by
    rw [hsize]
    exact h.begins s scope (hscopes ▸ hs)
  within row s scope hrow hs := by
    rw [hsize]
    exact h.within row s scope ((hscope row).symm.trans hrow) (hscopes ▸ hs)

theorem Ranged.setMeaning (h : t.Ranged) (row : Nat) (m : Meaning) : (t.setMeaning row m).Ranged :=
  h.congr rfl size_setMeaning fun _ => scope?_setMeaning

theorem Ranged.retire (h : t.Ranged) (row : Nat) : (t.retire row).Ranged :=
  h.congr rfl size_retire fun _ => scope?_retire

/-- **A row is added** to the current scope, which has not ended. -/
theorem Ranged.appendRow (h : t.Ranged) : (t.appendRow x kind).2.Ranged where
  nested := h.nested
  placed row s hs := by
    rw [scope?_appendRow] at hs
    split at hs
    · cases hs
      exact h.nested.current
    · exact h.placed row s hs
  unended := h.unended
  begins s scope hs := by
    rw [size_appendRow]
    exact Nat.le_succ_of_le (h.begins s scope hs)
  within row s scope hrow hs := by
    rw [scopes_appendRow] at hs
    rw [size_appendRow]
    rw [scope?_appendRow] at hrow
    split at hrow
    · rename_i heq
      cases hrow
      have hopen := (h.unended _ scope hs).2 (Scopes.mem_enclosing_self h.nested.current)
      rw [hopen, heq]
      exact ⟨h.begins _ scope hs, Nat.lt_succ_self _⟩
    · obtain ⟨hfirst, hend⟩ := h.within row s scope hrow hs
      refine ⟨hfirst, Nat.lt_of_lt_of_le hend ?_⟩
      cases scope.endRow with
      | none => exact Nat.le_succ _
      | some e => exact Nat.le_refl _

/-- **A scope opens** in the current one, with no rows yet. -/
theorem Ranged.enterScope (h : t.Ranged) : (t.enterScope region).Ranged where
  nested := h.nested.enter
  placed row s hs := by
    rw [SymbolTable.enterScope, Scopes.size_enter]
    exact Nat.lt_succ_of_lt (h.placed row s hs)
  unended s scope hs := by
    have hnew : (t.enterScope region).scopes.enclosing (t.enterScope region).currentScope =
        t.scopes.all.size :: t.scopes.enclosing t.currentScope := by
      have htop : (t.scopes.enter region t.rows.size).all[t.scopes.all.size]? =
          some ⟨some t.currentScope, region, t.rows.size, none⟩ := by
        rw [Scopes.enter, Array.getElem?_push, if_pos rfl]
        rfl
      refine (Scopes.enclosing_of_parent h.nested.enter htop rfl).trans ?_
      exact congrArg _ (Scopes.enclosing_enter h.nested.current region t.rows.size)
    rw [hnew, List.mem_cons]
    rw [SymbolTable.enterScope, Scopes.enter, Array.getElem?_push] at hs
    split at hs
    · rename_i heq
      cases hs
      exact ⟨fun _ => .inl heq, fun _ => rfl⟩
    · rename_i hne
      rw [h.unended s scope hs]
      exact ⟨.inr, fun hmem => hmem.resolve_left hne⟩
  begins s scope hs := by
    rw [SymbolTable.enterScope, Scopes.enter, Array.getElem?_push] at hs
    split at hs
    · cases hs
      exact Nat.le_refl _
    · exact h.begins s scope hs
  within row s scope hrow hs := by
    rw [getElem?_enterScope (h.placed row s hrow)] at hs
    exact h.within row s scope hrow hs

/-- **The current scope closes** behind the last row, so that its rows stay in its range. -/
theorem Ranged.leaveScope (h : t.Ranged) : t.leaveScope.Ranged := by
  rcases Scopes.leave_cases h.nested t.rows.size with heq | ⟨current, p, hcurrent, hp, heq⟩
  · rw [SymbolTable.leaveScope, heq]
    exact h
  have hlt : p < t.currentScope := h.nested.parents _ _ p hcurrent hp
  have hopen : current.endRow = none :=
    (h.unended _ _ hcurrent).2 (Scopes.mem_enclosing_self h.nested.current)
  -- a scope is the one that closes, or it is as before
  have hcases : ∀ {s : Nat} {scope : Scope}, t.leaveScope.scopes.all[s]? = some scope →
      (s = t.currentScope ∧ scope = { current with endRow := some t.rows.size }) ∨
        (s ≠ t.currentScope ∧ t.scopes.all[s]? = some scope) := by
    intro s scope hs
    rw [SymbolTable.leaveScope, heq] at hs
    dsimp only at hs
    rw [Array.getElem?_setIfInBounds] at hs
    split at hs
    · rename_i hsame
      rw [if_pos h.nested.current] at hs
      cases hs
      exact .inl ⟨hsame.symm, rfl⟩
    · rename_i hne
      exact .inr ⟨Ne.symm hne, hs⟩
  exact
    { nested := h.nested.leave
      placed := fun row s hs => by
        rw [SymbolTable.leaveScope, Scopes.size_leave]
        exact h.placed row s hs
      unended := fun s scope hs => by
        have hwalk : t.leaveScope.scopes.enclosing t.leaveScope.currentScope =
            t.scopes.enclosing p := by
          rw [SymbolTable.currentScope, SymbolTable.leaveScope, Scopes.enclosing_leave, heq]
        rw [hwalk]
        rcases hcases hs with ⟨rfl, rfl⟩ | ⟨hne, hs⟩
        · refine ⟨fun hnone => absurd hnone (Option.some_ne_none _), fun hmem => ?_⟩
          have hle := Scopes.le_of_mem_enclosing hmem
          omega
        · rw [h.unended s scope hs, SymbolTable.currentScope,
            Scopes.enclosing_of_parent h.nested hcurrent hp, List.mem_cons]
          exact ⟨fun hmem => hmem.resolve_left hne, .inr⟩
      begins := fun s scope hs => by
        rcases hcases hs with ⟨rfl, rfl⟩ | ⟨-, hs⟩
        · exact h.begins _ current hcurrent
        · exact h.begins s scope hs
      within := fun row s scope hrow hs => by
        rcases hcases hs with ⟨rfl, rfl⟩ | ⟨-, hs⟩
        · have hwithin := h.within row _ current hrow hcurrent
          rwa [hopen] at hwithin
        · exact h.within row s scope hrow hs }

theorem ranged_ofKeywords (keywords : List String) : (ofKeywords keywords).Ranged where
  toOrderly := (housed_ofKeywords keywords).toOrderly
  unended s scope hs := by
    obtain rfl : s = 0 := Nat.lt_one_iff.1 (Array.getElem?_eq_some_iff.1 hs).1
    cases hs
    exact ⟨fun _ => Scopes.mem_enclosing_self Nat.zero_lt_one, fun _ => rfl⟩
  begins := (housed_ofKeywords keywords).begins
  within row s scope hrow hs := by
    have hlt := lt_of_scope? hrow
    obtain rfl : s = 0 := Nat.lt_one_iff.1 (Array.getElem?_eq_some_iff.1 hs).1
    cases hs
    exact ⟨Nat.zero_le _, hlt⟩

end Ranges

section Lookups

/-- **A row that declares a name in a scope,** with a cell if one is asked for. -/
def Declares (t : SymbolTable) (x : String) (withCell : Bool) (s row : Nat) : Prop :=
  t.scope? row = some s ∧ t.name? row = some x ∧ (withCell = true → (t.cell? row).isSome)

/-- **The latest row that declares a name in a scope.** -/
def DeclaresLast (t : SymbolTable) (x : String) (withCell : Bool) (s row : Nat) : Prop :=
  t.Declares x withCell s row ∧ ∀ i, t.Declares x withCell s i → i ≤ row

theorem carries_iff : t.carries x withCell i = true ↔
    t.name? i = some x ∧ (withCell = true → (t.cell? i).isSome) := by
  cases withCell <;> simp [carries]

/-- The first in a falling list is the greatest. -/
theorem find?_eq_some_iff_of_pairwise {l : List Nat} {p : Nat → Bool} (hl : l.Pairwise (· > ·)) :
    l.find? p = some i ↔ i ∈ l ∧ p i = true ∧ ∀ j ∈ l, p j = true → j ≤ i := by
  induction l with
  | nil => simp
  | cons k l ih =>
    obtain ⟨hk, hl⟩ := List.pairwise_cons.1 hl
    rw [List.find?_cons]
    cases hp : p k with
    | true =>
      simp only [Option.some.injEq, List.mem_cons]
      constructor
      · rintro rfl
        exact ⟨.inl rfl, hp, fun j hj _ => hj.elim Nat.le_of_eq fun hj => Nat.le_of_lt (hk j hj)⟩
      · rintro ⟨rfl | hi, -, hle⟩
        · rfl
        · exact absurd (hle k (.inl rfl) hp) (Nat.not_le.2 (hk i hi))
    | false =>
      rw [ih hl]
      simp only [List.mem_cons, forall_eq_or_imp, hp]
      constructor
      · rintro ⟨hi, hpi, hle⟩
        exact ⟨.inr hi, hpi, nofun, hle⟩
      · rintro ⟨rfl | hi, hpi, -, hle⟩
        · rw [hp] at hpi
          cases hpi
        · exact ⟨hi, hpi, hle⟩

/-- What is found first in a list, by its place. -/
theorem findSome?_eq_some_iff_getElem? {α β : Type} {f : α → Option β} {l : List α} {b : β} :
    l.findSome? f = some b ↔ ∃ (n : Nat) (a : α), l[n]? = some a ∧ f a = some b ∧
      ∀ k < n, ∀ c, l[k]? = some c → f c = none := by
  induction l with
  | nil => simp
  | cons c l ih =>
    rw [List.findSome?_cons]
    cases hc : f c with
    | some d =>
      constructor
      · rintro ⟨⟩
        exact ⟨0, c, rfl, hc, nofun⟩
      · rintro ⟨n, a, ha, hb, hbefore⟩
        cases n with
        | zero =>
          cases ha
          exact hc.symm.trans hb
        | succ n =>
          rw [hbefore 0 (Nat.succ_pos n) c rfl] at hc
          cases hc
    | none =>
      rw [ih]
      constructor
      · rintro ⟨n, a, ha, hb, hbefore⟩
        refine ⟨n + 1, a, ha, hb, fun k hk d hd => ?_⟩
        cases k with
        | zero =>
          cases hd
          exact hc
        | succ k => exact hbefore k (Nat.lt_of_succ_lt_succ hk) d hd
      · rintro ⟨n, a, ha, hb, hbefore⟩
        cases n with
        | zero =>
          cases ha
          rw [hc] at hb
          cases hb
        | succ n =>
          exact ⟨n, a, ha, hb, fun k hk d hd => hbefore (k + 1) (Nat.succ_lt_succ hk) d hd⟩

theorem Ranged.latestIn_iff (h : t.Ranged) :
    t.latestIn s x withCell = some row ↔ t.DeclaresLast x withCell s row := by
  rw [latestIn, find?_eq_some_iff_of_pairwise (t.pairwise_ownRows s)]
  simp only [DeclaresLast, Declares, h.mem_ownRows, carries_iff, and_assoc, and_imp]

theorem Ranged.latestIn_eq_none_iff (h : t.Ranged) :
    t.latestIn s x withCell = none ↔ ∀ i, ¬t.Declares x withCell s i := by
  simp only [latestIn, List.find?_eq_none, h.mem_ownRows, carries_iff, Declares, not_and]

/-- The scopes that a name is looked up in. -/
theorem Ranged.getElem?_walk (h : t.Ranged) (hs : s < t.scopes.all.size) {n a : Nat} :
    (if outward then t.scopes.enclosing s else [s])[n]? = some a ↔
      (outward = true ∨ n = 0) ∧ t.scopes.Around s n a := by
  cases outward with
  | true =>
    rw [Scopes.around_iff h.nested]
    simp
  | false =>
    rw [if_neg Bool.false_ne_true]
    constructor
    · intro ha
      obtain ⟨hn, rfl⟩ : n = 0 ∧ s = a := by
        cases n with
        | zero => exact ⟨rfl, Option.some.inj ha⟩
        | succ n => cases ha
      exact ⟨.inr hn, hn ▸ .here hs⟩
    · rintro ⟨hn, ha⟩
      obtain rfl := hn.resolve_left Bool.false_ne_true
      cases ha
      rfl

/-- **The row that a name stands for** is the latest of the nearest scope that declares it. -/
theorem Ranged.resolve_iff (h : t.Ranged) (hs : s < t.scopes.all.size) :
    t.resolve x s withCell outward = some row ↔ ∃ n a, (outward = true ∨ n = 0) ∧
      t.scopes.Around s n a ∧ t.DeclaresLast x withCell a row ∧
        ∀ k b, k < n → t.scopes.Around s k b → ∀ i, ¬t.Declares x withCell b i := by
  rw [resolve, findSome?_eq_some_iff_getElem?]
  simp only [h.getElem?_walk hs, h.latestIn_iff, h.latestIn_eq_none_iff, and_assoc]
  refine exists₂_congr fun n a => and_congr_right fun hn => and_congr_right fun _ =>
    and_congr_right fun _ => ⟨fun hbefore k b hk hb => ?_, fun hbefore k hk b hb => ?_⟩
  · exact hbefore k hk b ⟨hn.imp_right fun hzero => by omega, hb⟩
  · exact hbefore k b hk hb.2

theorem Ranged.resolve_eq_none_iff (h : t.Ranged) (hs : s < t.scopes.all.size) :
    t.resolve x s withCell outward = none ↔ ∀ n a, (outward = true ∨ n = 0) →
      t.scopes.Around s n a → ∀ i, ¬t.Declares x withCell a i := by
  rw [resolve, List.findSome?_eq_none_iff]
  simp only [List.mem_iff_getElem?, h.getElem?_walk hs, h.latestIn_eq_none_iff]
  exact ⟨fun hnone n a hn ha => hnone a ⟨n, hn, ha⟩, fun hnone a ⟨n, hn, ha⟩ => hnone n a hn ha⟩

/-- **A row comes before another one** where its scope is nearer, or where it is the later of the
two. -/
def Before (t : SymbolTable) (s i j : Nat) : Prop :=
  ∃ n a k b, t.scopes.Around s n a ∧ t.scope? i = some a ∧ t.scopes.Around s k b ∧
    t.scope? j = some b ∧ (n < k ∨ n = k ∧ j < i)

/-- **The functions of a name** are those in the scopes around. -/
theorem Ranged.mem_visibleFunctions (h : t.Ranged) : i ∈ t.visibleFunctions s x ↔
    (∃ n a, t.scopes.Around s n a ∧ t.scope? i = some a) ∧ t.name? i = some x ∧
      (t.function? i).isSome := by
  simp only [visibleFunctions, functionsIn, List.mem_flatMap, List.mem_filter, h.mem_ownRows,
    Bool.and_eq_true, carries_iff, ← Scopes.exists_around_iff h.nested]
  constructor
  · rintro ⟨a, ⟨n, ha⟩, hi, ⟨hx, -⟩, hf⟩
    exact ⟨⟨n, a, ha, hi⟩, hx, hf⟩
  · rintro ⟨⟨n, a, ha, hi⟩, hx, hf⟩
    exact ⟨a, ⟨n, ha⟩, hi, ⟨hx, fun hfalse => absurd hfalse Bool.false_ne_true⟩, hf⟩

/-- **They come in their order:** those of nearer scopes first, and the later ones of a scope. -/
theorem Ranged.pairwise_visibleFunctions (h : t.Ranged) (s : Nat) (x : String) :
    (t.visibleFunctions s x).Pairwise (t.Before s) := by
  have hplace : ∀ {a i}, i ∈ t.functionsIn a x → t.scope? i = some a := fun hi =>
    h.mem_ownRows.1 (List.mem_filter.1 hi).1
  rw [visibleFunctions, List.pairwise_flatMap]
  refine ⟨fun a ha => ?_, ?_⟩
  · obtain ⟨n, hn⟩ := (Scopes.exists_around_iff h.nested).2 ha
    refine (t.pairwise_functionsIn a x).imp_of_mem fun {i j} hi hj hlt => ?_
    exact ⟨n, a, n, a, hn, hplace hi, hn, hplace hj, .inr ⟨rfl, hlt⟩⟩
  · rw [List.pairwise_iff_getElem]
    intro n k hn hk hlt i hi j hj
    exact ⟨n, _, k, _, (Scopes.around_iff h.nested).2 (List.getElem?_eq_getElem hn), hplace hi,
      (Scopes.around_iff h.nested).2 (List.getElem?_eq_getElem hk), hplace hj, .inl hlt⟩

/-- **Names and functions are looked up alike** in two tables, from a scope. -/
def Alike (s : Nat) (t t' : SymbolTable) : Prop :=
  ∀ x, (∀ withCell outward, t'.resolve x s withCell outward = t.resolve x s withCell outward) ∧
    t'.visibleFunctions s x = t.visibleFunctions s x

/-- Lookups depend on the rows of the scopes around. -/
theorem Ranged.alike (h : t.Ranged) (h' : t'.Ranged) (hs : s < t.scopes.all.size)
    (hwalk : t'.scopes.enclosing s = t.scopes.enclosing s)
    (hrows : ∀ a ∈ t.scopes.enclosing s, ∀ i, t'.scope? i = some a ↔ t.scope? i = some a)
    (hsame : ∀ i < t.rows.size, t'.rows[i]? = t.rows[i]?) : Alike s t t' := by
  have hown : ∀ a ∈ t.scopes.enclosing s, t'.ownRows a = t.ownRows a := fun a ha =>
    (t'.pairwise_ownRows a).eq_of_mem_iff (t.pairwise_ownRows a) fun i => by
      rw [h'.mem_ownRows, h.mem_ownRows, hrows a ha]
  have hrow : ∀ a ∈ t.scopes.enclosing s, ∀ i ∈ t.ownRows a, t'.rows[i]? = t.rows[i]? :=
    fun a _ i hi => hsame i (lt_of_scope? (h.mem_ownRows.1 hi))
  have hcarries : ∀ a ∈ t.scopes.enclosing s, ∀ i ∈ t.ownRows a, ∀ x withCell,
      t'.carries x withCell i = t.carries x withCell i := by
    intro a ha i hi x withCell
    simp only [carries, name?, cell?, meaning?, hrow a ha i hi]
  have hlatest : ∀ a ∈ t.scopes.enclosing s, ∀ x withCell,
      t'.latestIn a x withCell = t.latestIn a x withCell := by
    intro a ha x withCell
    rw [latestIn, latestIn, hown a ha]
    exact find?_congr fun i hi => hcarries a ha i hi x withCell
  refine fun x => ⟨fun withCell outward => ?_, ?_⟩
  · have hmem : ∀ a ∈ (if outward then t.scopes.enclosing s else [s]), a ∈ t.scopes.enclosing s := by
      intro a ha
      cases outward with
      | true => exact ha
      | false =>
        rw [List.mem_singleton.1 ha]
        exact Scopes.mem_enclosing_self hs
    rw [resolve, resolve, hwalk, ← List.head?_filterMap, ← List.head?_filterMap]
    exact congrArg _ (List.filterMap_congr fun a ha => hlatest a (hmem a ha) x withCell)
  · rw [visibleFunctions, visibleFunctions, hwalk]
    refine List.flatMap_congr fun a ha => ?_
    rw [functionsIn, functionsIn, hown a ha]
    refine List.filter_congr fun i hi => ?_
    rw [hcarries a ha i hi, function?, function?, meaning?, meaning?, hrow a ha i hi]

end Lookups

section Requests

/-- **What a table can be asked for.** -/
inductive Request where
  /-- A word has been read. -/
  | record (word : String) (kind : TokenKind)
  | append (name : String) (kind : TokenKind)
  | openScope (region : Region)
  | closeScope
  | retire (row : Nat)
  | becomeFunction (row : Nat) (info : FunctionInfo)
  | becomeLoops (row : Nat)
  | giveCell (row cell : Nat)

/-- A row comes to mean something else, if its meaning allows the change. -/
def change (t : SymbolTable) (row : Nat) (f : Meaning → Except MeaningError Meaning) : SymbolTable :=
  match (t.meaning? row).map f with
  | some (.ok m) => t.setMeaning row m
  | _ => t

/-- **The table behind a request.** -/
def after (t : SymbolTable) : Request → SymbolTable
  | .record word kind => (t.recordWord word kind).2
  | .append name kind => (t.appendRow name kind).2
  | .openScope region => t.enterScope region
  | .closeScope => t.leaveScope
  | .retire row => t.retire row
  | .becomeFunction row info => t.change row (·.becomeFunction info)
  | .becomeLoops row => t.change row (·.becomeLoops)
  | .giveCell row cell => t.setMeaning row (.variable (some cell))

/-- **A request that has to do with other scopes:** a scope opens or closes, or a row is added to one
that is not around this scope. -/
def Request.Elsewhere (t : SymbolTable) (s : Nat) : Request → Prop
  | .record .. | .append .. => ∀ n, ¬t.scopes.Around s n t.currentScope
  | .openScope _ | .closeScope => True
  | _ => False

theorem recordWord_cases (t : SymbolTable) (word : String) (kind : TokenKind) :
    (t.recordWord word kind).2 = t ∨
      (t.recordWord word kind).2 = (t.appendRow word kind).2 := by
  unfold recordWord
  split
  · exact .inl rfl
  · rcases (rowFor_spec t word kind fun m => !m.isFunction).2 with ⟨heq, -⟩ | heq
    · exact .inl heq
    · exact .inr (congrArg Prod.snd heq)

theorem Ranged.change (h : t.Ranged) (row : Nat) (f : Meaning → Except MeaningError Meaning) :
    (t.change row f).Ranged := by
  unfold SymbolTable.change
  split
  · exact h.setMeaning row _
  · exact h

/-- **Every request leaves rows in their ranges.** -/
theorem Ranged.after (h : t.Ranged) (r : Request) : (t.after r).Ranged := by
  cases r with
  | record word kind =>
    rcases recordWord_cases t word kind with heq | heq
    · rw [SymbolTable.after, heq]
      exact h
    · rw [SymbolTable.after, heq]
      exact h.appendRow
  | append name kind => exact h.appendRow
  | openScope region => exact h.enterScope
  | closeScope => exact h.leaveScope
  | retire row => exact h.retire row
  | becomeFunction row info => exact h.change row _
  | becomeLoops row => exact h.change row _
  | giveCell row cell => exact h.setMeaning row _

/-- A row that is added to another scope is found from none. -/
theorem Ranged.alike_appendRow (h : t.Ranged) (hs : s < t.scopes.all.size)
    (hne : ∀ n, ¬t.scopes.Around s n t.currentScope) : Alike s t (t.appendRow x kind).2 := by
  refine h.alike h.appendRow hs rfl (fun a ha i => ?_) fun i hi => ?_
  · have hother : t.currentScope ≠ a := by
      rintro rfl
      obtain ⟨n, hn⟩ := (Scopes.exists_around_iff h.nested).2 ha
      exact hne n hn
    rw [scope?_appendRow]
    split
    · rename_i heq
      rw [heq]
      refine ⟨fun hc => absurd (Option.some.inj hc) hother, fun hc => ?_⟩
      exact absurd (lt_of_scope? hc) (Nat.lt_irrefl _)
    · exact Iff.rfl
  · rw [SymbolTable.appendRow, Array.getElem?_push, if_neg (Nat.ne_of_lt hi)]

/-- **What happens elsewhere** changes no lookup. -/
theorem Ranged.alike_after (h : t.Ranged) (hs : s < t.scopes.all.size) {r : Request}
    (hr : r.Elsewhere t s) : Alike s t (t.after r) := by
  cases r with
  | record word kind =>
    rcases recordWord_cases t word kind with heq | heq
    · rw [SymbolTable.after, heq]
      exact fun _ => ⟨fun _ _ => rfl, rfl⟩
    · rw [SymbolTable.after, heq]
      exact h.alike_appendRow hs hr
  | append name kind => exact h.alike_appendRow hs hr
  | openScope region =>
    exact h.alike h.enterScope hs (Scopes.enclosing_enter hs _ _) (fun _ _ _ => Iff.rfl)
      fun _ _ => rfl
  | closeScope =>
    exact h.alike h.leaveScope hs (Scopes.enclosing_leave _ _ _) (fun _ _ _ => Iff.rfl)
      fun _ _ => rfl
  | retire _ | becomeFunction _ _ | becomeLoops _ | giveCell _ _ => exact hr.elim

/-- **Names are looked up by scopes.** -/
structure Scoped (t : SymbolTable) : Prop where
  /-- A scope lies in an older one. -/
  parents : ∀ (s : Nat) (scope : Scope) (p : Nat), t.scopes.all[s]? = some scope →
    scope.parent = some p → p < s
  /-- The scopes without an end are the current one and those around it. -/
  unended : ∀ (s : Nat) (scope : Scope), t.scopes.all[s]? = some scope →
    (scope.endRow = none ↔ ∃ n, t.scopes.Around t.currentScope n s)
  /-- A row lies in the range of its scope. -/
  ranges : ∀ row s, t.scope? row = some s → ∃ scope, t.scopes.all[s]? = some scope ∧
    scope.firstRow ≤ row ∧ row < scope.endRow.getD t.rows.size
  /-- A name stands for the latest row of the nearest scope that declares it. -/
  found : ∀ s < t.scopes.all.size, ∀ x withCell outward row,
    t.resolve x s withCell outward = some row ↔ ∃ n a, (outward = true ∨ n = 0) ∧
      t.scopes.Around s n a ∧ t.DeclaresLast x withCell a row ∧
        ∀ k b, k < n → t.scopes.Around s k b → ∀ i, ¬t.Declares x withCell b i
  /-- It stands for none only where no scope declares it. -/
  missing : ∀ s < t.scopes.all.size, ∀ x withCell outward,
    t.resolve x s withCell outward = none ↔ ∀ n a, (outward = true ∨ n = 0) →
      t.scopes.Around s n a → ∀ i, ¬t.Declares x withCell a i
  /-- The functions of a name are those that the scopes around have under it. -/
  functions : ∀ s x i, i ∈ t.visibleFunctions s x ↔
    (∃ n a, t.scopes.Around s n a ∧ t.scope? i = some a) ∧ t.name? i = some x ∧
      (t.function? i).isSome
  /-- Those of nearer scopes come first, and of one scope the latest. -/
  order : ∀ s x, (t.visibleFunctions s x).Pairwise (t.Before s)
  /-- Other scopes have nothing to do with that. -/
  elsewhere : ∀ s < t.scopes.all.size, ∀ r : Request, r.Elsewhere t s → Alike s t (t.after r)

theorem Ranged.scoped (h : t.Ranged) : t.Scoped where
  parents := h.nested.parents
  unended s scope hs := by rw [h.unended s scope hs, Scopes.exists_around_iff h.nested]
  ranges row s hrow := ⟨_, Array.getElem?_eq_getElem (h.placed row s hrow),
    h.within row s _ hrow (Array.getElem?_eq_getElem (h.placed row s hrow))⟩
  found _ hs _ _ _ _ := h.resolve_iff hs
  missing _ hs _ _ _ := h.resolve_eq_none_iff hs
  functions _ _ _ := h.mem_visibleFunctions
  order := h.pairwise_visibleFunctions
  elsewhere _ hs _ hr := h.alike_after hs hr

/-- **Whatever a table has been asked for,** it looks names up by scopes. -/
theorem scoped_of_requests (keywords : List String) (requests : List Request) :
    (requests.foldl after (ofKeywords keywords)).Scoped := by
  have hranged : ∀ t : SymbolTable, t.Ranged → (requests.foldl after t).Ranged := by
    induction requests with
    | nil => exact fun _ h => h
    | cons r requests ih => exact fun t h => ih (t.after r) (h.after r)
  exact (hranged _ (ranged_ofKeywords keywords)).scoped

/-- A name is declared again in a loop, which hides it there and nowhere else. -/
example :
    let t := [.record "x" .identifier, .openScope .loop, .record "x" .identifier, .closeScope].foldl
      after (ofKeywords ["while"])
    (t.resolve "x" 1 false true, t.resolve "x" 0 false true) = (some 2, some 1) := by
  decide +kernel

end Requests

end SymbolTable

end OnePass.Names
