import OnePass.Proofs.Emission.Overloads
import OnePass.Proofs.Syntax.Stretches

/-!
# What happens to the functions of scopes

A loop and a body have scopes of their own, with no functions at first. While the parameters of a
definition are read, its row waits behind all others of its name; then its function is put there
and known. Returns and the ends of definitions change the latest function of a scope, and the
rivals of that are retired.

* `Owns.insert`, `Owns.giveValue`, `Owns.end`, `Owns.settle`: what happens to a scope.
* `Nest.placed`, `Nest.rows_lt`: functions lie in the scopes of their stretches.
* `Nest.enterLoop`, `Nest.leaveBody`, `Nest.giveValue`, `Nest.settle`: **what loops, definitions and
  returns do** to the scopes around a place.
* `Heading`, `Nest.enterBody`, `Heading.publish`: a function whose parameters are being read.
-/

namespace OnePass

namespace Names.SymbolTable

variable {t : SymbolTable} {i row : Nat} {l : List Nat}

/-- A row that is found for a function stands for none yet. -/
theorem function?_rowFor_unused (t : SymbolTable) (x : String) :
    (t.rowFor x .identifier (· = .unused)).2.function? (t.rowFor x .identifier (· = .unused)).1 =
      none := by
  obtain ⟨m, hm, hunused⟩ := meaning?_rowFor t x .identifier (· = .unused)
  obtain rfl : m = .unused := by simpa using hunused
  rw [function?, hm]
  rfl

/-- Rows may stand for something else and keep their names. -/
theorem retired_setMeaning {m : Meaning} : (t.setMeaning row m).Retired i ↔ t.Retired i := by
  rw [retired_iff_name?, retired_iff_name?, name?_setMeaning]

/-- Rows that are not retired keep their names. -/
theorem name?_foldl_retire (h : i ∉ l) : (l.foldl retire t).name? i = t.name? i := by
  induction l generalizing t with
  | nil => rfl
  | cons row l ih =>
    rw [List.mem_cons, not_or] at h
    obtain ⟨hne, h⟩ := h
    rw [List.foldl_cons, ih h, name?_retire_ne (Ne.symm hne)]

/-- Retired rows keep all else. -/
theorem foldl_retire_same (t : SymbolTable) (l : List Nat) (i : Nat) :
    (l.foldl retire t).scope? i = t.scope? i ∧ (l.foldl retire t).function? i = t.function? i ∧
      (l.foldl retire t).scopes = t.scopes := by
  induction l generalizing t with
  | nil => exact ⟨rfl, rfl, rfl⟩
  | cons row l ih =>
    obtain ⟨hs, hf, hscopes⟩ := ih (t.retire row)
    exact ⟨hs.trans scope?_retire, hf.trans function?_retire, hscopes⟩

end Names.SymbolTable

namespace Syntax

open Emission Names
open Grammar (Action)

variable {t t' : SymbolTable} {made : Nat → Made} {k k' : Known} {fs before : List Known}
  {s row i : Nat} {e : Extent} {outer stretches : List Stretch} {rows l : List Nat} {f x : String}
  {info : FunctionInfo}

section Owns

/-- Functions of one scope are on rows of their own. -/
theorem Owns.row_ne (h : Owns t made s (k :: fs)) {k' : Known} (hk' : k' ∈ fs) :
    k'.row made ≠ k.row made := by
  intro heq
  have hlt := (List.pairwise_cons.1 h.order).1 k' hk'
  have hname := (h.stands k List.mem_cons_self).name
  rw [← heq, (h.stands k' (List.mem_cons_of_mem _ hk')).name, Option.some.injEq] at hname
  exact absurd heq (Nat.ne_of_lt (hlt hname.symm))

/-- A row of another scope may stand for another function. -/
theorem Owns.elsewhere (h : Owns t made s fs) (hrow : t.scope? row ≠ some s)
    (hlt : row < t.rows.size) : Owns (t.setMeaning row (.function info)) made s fs := by
  refine h.congr (fun i hi => ⟨SymbolTable.scope?_setMeaning.trans hi, ?_, fun n hn =>
    SymbolTable.name?_setMeaning.trans hn⟩) fun i hi _ => SymbolTable.scope?_setMeaning.symm.trans hi
  rw [SymbolTable.function?_setFunction hlt, if_neg]
  rintro rfl
  exact hrow hi

/-- **A function is known** once it is put on its row, if that comes behind those of its name. -/
theorem Owns.insert (h : Owns t made s fs) (hs : t.scope? (k.row made) = some s)
    (hnone : t.function? (k.row made) = none) (hname : t.name? (k.row made) = some k.name)
    (hx : Unmarked k.name) (harity : (k.info made).arity = k.arity)
    (hlatest : ∀ k' ∈ fs, k'.name = k.name → k'.row made < k.row made) :
    Owns (t.setMeaning (k.row made) (.function (k.info made))) made s (k :: fs) := by
  have hfunction : ∀ i, (t.setMeaning (k.row made) (.function (k.info made))).function? i =
      if k.row made = i then some (k.info made) else t.function? i := fun i =>
    SymbolTable.function?_setFunction (SymbolTable.lt_of_scope? hs)
  have hne : ∀ k' ∈ fs, k.row made ≠ k'.row made := by
    intro k' hk' heq
    have hsome := (h.stands k' hk').function
    rw [← heq, hnone] at hsome
    cases hsome
  refine ⟨List.forall_mem_cons.2 ⟨⟨?_, ?_, harity, hx⟩, fun k' hk' => ?_⟩,
    List.forall_mem_cons.2 ⟨SymbolTable.scope?_setMeaning.trans hs, fun k' hk' =>
      SymbolTable.scope?_setMeaning.trans (h.placed k' hk')⟩, fun i hi hsome hlive => ?_,
    List.pairwise_cons.2 ⟨fun k' hk' heq => hlatest k' hk' heq.symm, h.order⟩⟩
  · rw [hfunction, if_pos rfl]
  · rw [SymbolTable.name?_setMeaning, hname]
  · obtain ⟨hf, hn, ha, hu⟩ := h.stands k' hk'
    refine ⟨?_, SymbolTable.name?_setMeaning.trans hn, ha, hu⟩
    rw [hfunction, if_neg (hne k' hk'), hf]
  · by_cases heq : k.row made = i
    · exact ⟨k, List.mem_cons_self, heq⟩
    · rw [hfunction, if_neg heq] at hsome
      rw [SymbolTable.scope?_setMeaning] at hi
      obtain ⟨k', hk', heq'⟩ := h.known i hi hsome fun hc => hlive (SymbolTable.retired_setMeaning.2 hc)
      exact ⟨k', List.mem_cons_of_mem _ hk', heq'⟩

/-- **The latest function gives a value** from now on. -/
theorem Owns.giveValue (h : Owns t made s (k :: fs)) :
    Owns (t.setMeaning (k.row made) (.function { k.info made with returnsValue := true })) made s
      ({ k with givesValue := true } :: fs) := by
  have hlt := SymbolTable.lt_of_scope? (h.placed k List.mem_cons_self)
  have hfunction : ∀ i,
      (t.setMeaning (k.row made) (.function { k.info made with returnsValue := true })).function? i =
        if k.row made = i then some { k.info made with returnsValue := true } else t.function? i :=
    fun _ => SymbolTable.function?_setFunction hlt
  obtain ⟨hk, hfs⟩ := List.forall_mem_cons.1 h.stands
  obtain ⟨hplace, hplaced⟩ := List.forall_mem_cons.1 h.placed
  refine ⟨List.forall_mem_cons.2 ⟨⟨?_, SymbolTable.name?_setMeaning.trans hk.name, hk.arity,
    hk.unmarked⟩, fun k' hk' => ?_⟩, List.forall_mem_cons.2 ⟨SymbolTable.scope?_setMeaning.trans
      hplace, fun k' hk' => SymbolTable.scope?_setMeaning.trans (hplaced k' hk')⟩,
    fun i hi hsome hlive => ?_, List.pairwise_cons.2 (List.pairwise_cons.1 h.order)⟩
  · exact (hfunction _).trans (if_pos rfl)
  · obtain ⟨hf, hn, ha, hu⟩ := hfs k' hk'
    refine ⟨?_, SymbolTable.name?_setMeaning.trans hn, ha, hu⟩
    rw [hfunction, if_neg (Ne.symm (h.row_ne hk')), hf]
  · by_cases heq : k.row made = i
    · exact ⟨_, List.mem_cons_self, heq⟩
    · rw [hfunction, if_neg heq] at hsome
      rw [SymbolTable.scope?_setMeaning] at hi
      obtain ⟨k', hk', rfl⟩ := h.known i hi hsome fun hc => hlive (SymbolTable.retired_setMeaning.2 hc)
      exact ⟨k', List.mem_cons_of_mem _ ((List.mem_cons.1 hk').resolve_left
        fun hc => heq (hc ▸ rfl)), rfl⟩

/-- The latest function has ended, which its row does not say. -/
theorem Owns.end (h : Owns t made s (k :: fs)) : Owns t made s ({ k with ended := true } :: fs) := by
  obtain ⟨hk, hfs⟩ := List.forall_mem_cons.1 h.stands
  obtain ⟨hplace, hplaced⟩ := List.forall_mem_cons.1 h.placed
  refine ⟨List.forall_mem_cons.2 ⟨⟨hk.function, hk.name, hk.arity, hk.unmarked⟩, hfs⟩,
    List.forall_mem_cons.2 ⟨hplace, hplaced⟩, fun i hi hsome hlive => ?_,
    List.pairwise_cons.2 (List.pairwise_cons.1 h.order)⟩
  obtain ⟨k', hk', heq⟩ := h.known i hi hsome hlive
  rcases List.mem_cons.1 hk' with rfl | hk'
  · exact ⟨_, List.mem_cons_self, heq⟩
  · exact ⟨k', List.mem_cons_of_mem _ hk', heq⟩

/-- The signature of the row that a function stands on. -/
theorem Owns.signature? (h : Owns t made s fs) (hk : k ∈ fs) :
    t.signature? (k.row made) = some ⟨s, k.name, k.arity⟩ := by
  obtain ⟨hf, hn, ha, hx⟩ := h.stands k hk
  exact SymbolTable.signature?_eq_some_iff.2
    ⟨_, _, hf, h.placed k hk, hn, title_of_unmarked hx, ha⟩

theorem Owns.not_retired (h : Owns t made s fs) (hk : k ∈ fs) : ¬t.Retired (k.row made) := by
  intro hretired
  obtain ⟨name, hn, hm⟩ := SymbolTable.retired_iff_name?.1 hretired
  rw [(h.stands k hk).name, Option.some.injEq] at hn
  exact hm (hn ▸ (h.stands k hk).unmarked)

/-- **The functions whose place the latest one takes** are retired. -/
theorem Owns.settle (h : Owns t made s (k :: fs))
    (hl : ∀ i, i ∈ l ↔ i ≠ k.row made ∧ ¬t.Retired i ∧
      t.signature? i = t.signature? (k.row made)) :
    Owns (l.foldl SymbolTable.retire t) made s (Stretch.settled (k :: fs)) := by
  have hsame := SymbolTable.foldl_retire_same t l
  have hsize : ∀ i ∈ l, i < t.rows.size := by
    intro i hi
    obtain ⟨-, -, hsig⟩ := (hl i).1 hi
    rw [h.signature? List.mem_cons_self] at hsig
    obtain ⟨_, _, hf, -⟩ := SymbolTable.signature?_eq_some_iff.1 hsig
    exact SymbolTable.lt_of_function? hf
  -- of the functions in the scope these are retired
  have hmem : ∀ k' ∈ fs, k'.row made ∈ l ↔ k'.name = k.name ∧ k'.arity = k.arity := by
    intro k' hk'
    have hk'' := List.mem_cons_of_mem k hk'
    rw [hl, h.signature? hk'', h.signature? List.mem_cons_self]
    simp [h.row_ne hk', h.not_retired hk'']
  have hhead : k.row made ∉ l := fun hc => ((hl _).1 hc).1 rfl
  have hkept : ∀ k' ∈ Stretch.settled (k :: fs), k' ∈ k :: fs ∧ k'.row made ∉ l := by
    intro k' hk'
    rcases List.mem_cons.1 hk' with rfl | hk'
    · exact ⟨List.mem_cons_self, hhead⟩
    · obtain ⟨hk', hne⟩ := List.mem_filter.1 hk'
      refine ⟨List.mem_cons_of_mem _ hk', fun hc => ?_⟩
      exact of_decide_eq_true hne ((hmem k' hk').1 hc)
  refine ⟨fun k' hk' => ?_, fun k' hk' => ?_, fun i hi hsome hlive => ?_, ?_⟩
  · obtain ⟨hk', hnot⟩ := hkept k' hk'
    obtain ⟨hf, hn, ha, hx⟩ := h.stands k' hk'
    exact ⟨(hsame _).2.1.trans hf, (SymbolTable.name?_foldl_retire hnot).trans hn, ha, hx⟩
  · exact (hsame _).1.trans (h.placed k' (hkept k' hk').1)
  · rw [SymbolTable.retired_foldl_retire hsize, not_or] at hlive
    rw [(hsame i).1] at hi
    rw [(hsame i).2.1] at hsome
    obtain ⟨k', hk', rfl⟩ := h.known i hi hsome hlive.1
    refine ⟨k', ?_, rfl⟩
    rcases List.mem_cons.1 hk' with rfl | hk'
    · exact List.mem_cons_self
    · refine List.mem_cons_of_mem _ (List.mem_filter.2 ⟨hk', decide_eq_true fun hc => ?_⟩)
      exact hlive.2 ((hmem k' hk').2 hc)
  · exact h.order.sublist (List.Sublist.cons_cons _ List.filter_sublist)

end Owns

section Nest

/-- **Functions lie in the scopes of their stretches.** -/
theorem Nest.placed (h : Nest t made stretches s rows) (hn : t.scopes.Nested)
    (hk : k ∈ Stretch.all stretches) : ∃ s' ≤ s, t.scope? (k.row made) = some s' := by
  induction h with
  | text ho => exact ⟨_, Nat.le_refl _, ho.placed k (by simpa using hk)⟩
  | loop hat ho _ ih | body hat ho _ ih =>
    rw [Stretch.all_cons, List.mem_append] at hk
    rcases hk with hk | hk
    · exact ⟨_, Nat.le_refl _, ho.placed k hk⟩
    · obtain ⟨s', hle, hs'⟩ := ih hk
      exact ⟨s', Nat.le_trans hle (Nat.le_of_lt (hat.lt hn)), hs'⟩

/-- Those of the stretches around lie further out. -/
theorem Nest.placed_outer (h : Nest t made (⟨e, fs⟩ :: outer) s rows) (hn : t.scopes.Nested)
    (hk : k ∈ Stretch.all outer) : ∃ s' < s, t.scope? (k.row made) = some s' := by
  cases h with
  | text => cases hk
  | loop hat _ h | body hat _ h =>
    obtain ⟨s', hle, hs'⟩ := h.placed hn hk
    exact ⟨s', Nat.lt_of_le_of_lt hle (hat.lt hn), hs'⟩

/-- **The rows of the definitions** lie outside of their bodies. -/
theorem Nest.rows_lt (h : Nest t made stretches s rows) (hn : t.scopes.Nested) (hi : i ∈ rows) :
    ∃ s' < s, t.scope? i = some s' := by
  induction h with
  | text => cases hi
  | loop hat _ _ ih =>
    obtain ⟨s', hlt, hs'⟩ := ih hi
    exact ⟨s', Nat.lt_trans hlt (hat.lt hn), hs'⟩
  | body hat _ h ih =>
    rcases List.mem_cons.1 hi with rfl | hi
    · exact ⟨_, hat.lt hn, h.owns.placed _ List.mem_cons_self⟩
    · obtain ⟨s', hlt, hs'⟩ := ih hi
      exact ⟨s', Nat.lt_trans hlt (hat.lt hn), hs'⟩

/-- The latest function is none whose definition goes on around it. -/
theorem Nest.latest_not_mem_rows (h : Nest t made (⟨e, k :: fs⟩ :: outer) s rows)
    (hn : t.scopes.Nested) : k.row made ∉ rows := by
  intro hc
  obtain ⟨s', hlt, hs'⟩ := h.rows_lt hn hc
  rw [h.owns.placed k List.mem_cons_self, Option.some.injEq] at hs'
  exact absurd hlt (Nat.not_lt.2 (Nat.le_of_eq hs'))

/-- **The latest function** stands on a row of its own. -/
theorem Nest.row_ne_latest (h : Nest t made (⟨e, k :: fs⟩ :: outer) s rows) (hn : t.scopes.Nested)
    (hk : k' ∈ fs ++ Stretch.all outer) : k'.row made ≠ k.row made := by
  rcases List.mem_append.1 hk with hk | hk
  · exact h.owns.row_ne hk
  · intro hc
    obtain ⟨s', hlt, hs'⟩ := h.placed_outer hn hk
    rw [hc, h.owns.placed k List.mem_cons_self, Option.some.injEq] at hs'
    exact absurd hlt (Nat.not_lt.2 (Nat.le_of_eq hs'))

/-- Tables in which no function has moved. -/
theorem Nest.unmoved (h : Nest t made stretches s rows) (hn : t.scopes.Nested)
    (hu : t.Unmoved x t') : Nest t' made stretches s rows :=
  h.mono hn (fun _ _ _ hat => hu.scopes.symm ▸ hat) fun _ _ _ ho => ho.keep hu.lengthens hu.functions

/-- No scope is that of a definition whose parameters are being read. -/
theorem Nest.behind_param (h : Nest t made stretches s rows) (x : String) (place : Nat) :
    Stretch.behind stretches .param x place = stretches ∧
      Stretch.behind stretches .paramsDone x place = stretches := by
  cases h <;> exact ⟨rfl, rfl⟩

/-- The scope of a loop is that of a stretch of one. -/
theorem Nest.of_loop {p : Option Nat} (h : Nest t made stretches s rows) (hr : t.scopes.Rooted)
    (hat : t.scopes.At s .loop p) : ∃ fs outer, stretches = ⟨.loop, fs⟩ :: outer := by
  have hregion := hat.region?
  cases h with
  | text =>
    rw [hr.at.region?] at hregion
    cases hregion
  | loop => exact ⟨_, _, rfl⟩
  | body hat' =>
    rw [hat'.region?] at hregion
    cases hregion

/-- The scope of a body is that of a stretch of one. -/
theorem Nest.of_body {p : Option Nat} (h : Nest t made stretches s rows) (hr : t.scopes.Rooted)
    (hat : t.scopes.At s (.body i) p) : ∃ fs e k before outer,
      stretches = ⟨.body, fs⟩ :: ⟨e, k :: before⟩ :: outer := by
  have hregion := hat.region?
  cases h with
  | text =>
    rw [hr.at.region?] at hregion
    cases hregion
  | loop hat' =>
    rw [hat'.region?] at hregion
    cases hregion
  | body => exact ⟨_, _, _, _, _, rfl⟩

/-- **A loop is entered.** -/
theorem Nest.enterLoop (h : Nest t made stretches t.currentScope rows) (ht : t.Housed) :
    Nest (t.enterScope .loop) made (⟨.loop, []⟩ :: stretches)
      (t.enterScope .loop).currentScope rows := by
  refine .loop (Scopes.at_enter t.scopes .loop _) (owns_nil fun i hi => ?_)
    (h.mono ht.nested (fun _ _ _ hat => hat.enter _ _) fun _ _ _ ho => ?_)
  · exact absurd (ht.placed i _ hi) (Nat.lt_irrefl _)
  · exact ho.keep (SymbolTable.lengthens_enterLoop (x := "")) fun _ => rfl

/-- **A loop is left.** -/
theorem Nest.leaveLoop (h : Nest t made (⟨.loop, fs⟩ :: outer) t.currentScope rows)
    (ht : t.Housed) : Nest t.leaveScope made outer t.leaveScope.currentScope rows := by
  generalize hcur : t.currentScope = cur at h
  cases h with
  | loop hat _ h =>
    subst hcur
    have hcurrent : t.leaveScope.currentScope = _ := Scopes.current_leave hat _
    rw [hcurrent]
    exact h.mono ht.nested (fun _ _ _ hat => hat.leave _) fun _ _ _ ho =>
      ho.keep (SymbolTable.lengthens_leaveScope (x := "")) fun _ => rfl

/-- **A body is left,** and the function is the latest of the stretch around. -/
theorem Nest.leaveBody (h : Nest t made (⟨.body, fs⟩ :: ⟨e, k :: before⟩ :: outer) t.currentScope
    (i :: rows)) (ht : t.Housed) : i = k.row made ∧
      Nest t.leaveScope made (⟨e, { k with ended := true } :: before⟩ :: outer)
        t.leaveScope.currentScope rows := by
  generalize hcur : t.currentScope = cur at h
  cases h with
  | body hat _ h =>
    subst hcur
    have hcurrent : t.leaveScope.currentScope = _ := Scopes.current_leave hat _
    have hkeep : ∀ s fs, Owns t made s fs → Owns t.leaveScope made s fs := fun _ _ ho =>
      ho.keep (SymbolTable.lengthens_leaveScope (x := "")) fun _ => rfl
    rw [hcurrent]
    exact ⟨rfl, h.change ht.nested (fun _ _ _ hat => hat.leave _) (fun _ _ _ ho => hkeep _ _ ho)
      (hkeep _ _ h.owns.end)⟩

/-- **A return with a value** is noted on the row of the innermost definition. -/
theorem Nest.giveValue (h : Nest t made stretches s (i :: rows)) (hn : t.scopes.Nested)
    (hf : t.function? i = some info) :
    Nest (t.setMeaning i (.function { info with returnsValue := true })) made
      (Stretch.giveValue stretches) s (i :: rows) := by
  have hlt := SymbolTable.lt_of_function? hf
  generalize hrows : i :: rows = all at h
  induction h generalizing rows with
  | text => cases hrows
  | loop hat ho h ih =>
    subst hrows
    refine .loop hat (ho.elsewhere (fun hc => ?_) hlt) (ih rfl)
    obtain ⟨s', hs', heq⟩ := h.rows_lt hn List.mem_cons_self
    rw [heq, Option.some.injEq] at hc
    exact absurd (hat.lt hn) (Nat.not_lt.2 (hc ▸ Nat.le_of_lt hs'))
  | @body s p _ _ k before _ _ hat ho h ih =>
    obtain ⟨rfl, rfl⟩ := List.cons.inj hrows
    have hplace := h.owns.placed k List.mem_cons_self
    obtain rfl : info = k.info made := by
      rw [(h.owns.stands k List.mem_cons_self).function] at hf
      exact (Option.some.inj hf).symm
    have helsewhere : ∀ s' ≠ p, ∀ fs, Owns t made s' fs → Owns (t.setMeaning (k.row made)
        (.function { k.info made with returnsValue := true })) made s' fs :=
      fun s' hne fs ho => ho.elsewhere (fun hc => hne (Option.some.inj (hc.symm.trans hplace))) hlt
    refine Nest.body (k := { k with givesValue := true }) hat
      (helsewhere _ (Nat.ne_of_gt (hat.lt hn)) _ ho) ?_
    exact h.change hn (fun _ _ _ hat => hat) (fun s' hs' => helsewhere s' (Nat.ne_of_lt hs'))
      h.owns.giveValue

/-- Outside of definitions it is noted nowhere. -/
theorem Nest.giveValue_nil (h : Nest t made stretches s []) :
    Stretch.giveValue stretches = stretches := by
  generalize hrows : [] = all at h
  induction h with
  | text => rfl
  | loop _ _ _ ih => rw [Stretch.giveValue, ih hrows]
  | body => cases hrows

/-- **The latest function is settled,** and those whose place it takes are retired. -/
theorem Nest.settle (h : Nest t made (⟨e, k :: fs⟩ :: outer) s rows) (hn : t.scopes.Nested)
    (hl : ∀ i, i ∈ l ↔ i ≠ k.row made ∧ ¬t.Retired i ∧
      t.signature? i = t.signature? (k.row made)) :
    Nest (l.foldl SymbolTable.retire t) made (⟨e, Stretch.settled (k :: fs)⟩ :: outer) s rows := by
  have hsame := SymbolTable.foldl_retire_same t l
  refine h.change hn (fun s r p hat => ?_) (fun s' hs' fs ho => ?_) (h.owns.settle hl)
  · rw [(hsame 0).2.2]
    exact hat
  · refine ho.congr (fun i hi => ⟨(hsame i).1.trans hi, (hsame i).2.1, fun n hname => ?_⟩)
      fun i hi _ => (hsame i).1.symm.trans hi
    rw [SymbolTable.name?_foldl_retire, hname]
    intro hc
    -- a rival lies in the scope of the function
    obtain ⟨-, -, hsig⟩ := (hl i).1 hc
    rw [h.owns.signature? List.mem_cons_self] at hsig
    obtain ⟨_, _, -, hscope, -⟩ := SymbolTable.signature?_eq_some_iff.1 hsig
    exact absurd (Option.some.inj (hi.symm.trans hscope)) (Nat.ne_of_lt hs')

end Nest

section Heading

/-- **A function whose parameters are being read.** Its row stands for no function yet, and comes
behind those of its name in the stretch that it stands in. -/
structure Heading (t : SymbolTable) (made : Nat → Made) (f : String) (row s : Nat)
    (outer : List Stretch) (rows : List Nat) : Prop where
  around : ∃ p, t.scopes.At s (.body row) (some p) ∧ Nest t made outer p rows
  own : Owns t made s []
  name : t.name? row = some f
  unmarked : Unmarked f
  unpublished : t.function? row = none
  latest : ∀ st ∈ outer.head?, ∀ k ∈ st.known, k.name = f → k.row made < row

/-- **A body is entered.** -/
theorem Nest.enterBody (h : Nest t made stretches t.currentScope rows) (ht : t.Housed)
    (ho : t.Opened t.currentScope) (hx : Unmarked x) {t' : SymbolTable}
    (hrow : row = (t.rowFor x .identifier (· = .unused)).1)
    (ht' : t' = (t.rowFor x .identifier (· = .unused)).2.enterScope (.body row)) :
    Heading t' made x row t'.currentScope stretches rows := by
  have hu := SymbolTable.unmoved_rowFor t x (· = .unused)
  have hlatest : (t.rowFor x .identifier (· = .unused)).2.latestIn t.currentScope x false =
      some (t.rowFor x .identifier (· = .unused)).1 := SymbolTable.latestIn_rowFor ho
  have hopen : (t.rowFor x .identifier (· = .unused)).2.Opened t.currentScope := ho.rowFor
  have hname := (SymbolTable.rowFor_spec t x .identifier (· = .unused)).1
  have hnone := SymbolTable.function?_rowFor_unused t x
  generalize (t.rowFor x .identifier (· = .unused)).2 = t₁ at *
  subst hrow ht'
  have ht₁ := hu.lengthens.housed ht
  have h₁ := h.unmoved ht.nested hu
  have hcurrent : t₁.currentScope = t.currentScope := congrArg Scopes.current hu.scopes
  have hkeep : ∀ s fs region, Owns t₁ made s fs → Owns (t₁.enterScope region) made s fs :=
    fun _ _ _ ho => ho.congr (fun _ hi => ⟨hi, rfl, fun _ hn => hn⟩) fun _ hi _ => hi
  refine ⟨⟨t₁.currentScope, Scopes.at_enter _ _ _, ?_⟩, owns_nil fun i hi => ?_, hname, hx, hnone, ?_⟩
  · rw [hcurrent]
    exact h₁.mono ht₁.nested (fun _ _ _ hat => hat.enter _ _) fun _ _ _ ho => hkeep _ _ _ ho
  · exact absurd (ht₁.placed i _ hi) (Nat.lt_irrefl _)
  · intro st hst k hk heq
    obtain ⟨rest, rfl⟩ := List.head?_eq_some_iff.1 hst
    have hown : Owns t₁ made t.currentScope st.known := h₁.owns
    refine Nat.lt_of_le_of_ne ?_ fun hc => ?_
    · exact SymbolTable.le_of_latestIn ht₁ hopen hlatest (hown.placed k hk)
        (heq ▸ (hown.stands k hk).name)
    · have hsome := (hown.stands k hk).function
      rw [hc, hnone] at hsome
      cases hsome

theorem Heading.unmoved (h : Heading t made f row s outer rows) (hn : t.scopes.Nested)
    (hu : t.Unmoved x t') : Heading t' made f row s outer rows where
  around := by
    obtain ⟨p, hat, h⟩ := h.around
    exact ⟨p, hu.scopes.symm ▸ hat, h.unmoved hn hu⟩
  own := h.own.keep hu.lengthens hu.functions
  name := hu.lengthens.name? h.name
  unmarked := h.unmarked
  unpublished := (hu.functions row).trans h.unpublished
  latest := h.latest

/-- **A function is known** when its parameters have been read. -/
theorem Heading.publish (h : Heading t made f row s outer rows) (ht : t.Housed) {place : Nat}
    (hmade : made place = ⟨row, info⟩) (hplain : info.returnsValue = false) :
    Nest (t.setMeaning row (.function info)) made
      (⟨.body, []⟩ :: Stretch.add ⟨f, info.arity, place, false, false⟩ outer) s (row :: rows) := by
  obtain ⟨⟨p, hat, hout⟩, hown, hname, hx, hnone, hlatest⟩ := h
  have hscope := ht.bodies _ _ _ hat
  have hlt := SymbolTable.lt_of_scope? hscope
  obtain ⟨k, hk⟩ : ∃ k : Known, k = ⟨f, info.arity, place, false, false⟩ := ⟨_, rfl⟩
  have hrow : k.row made = row := by rw [hk, Known.row, hmade]
  have hinfo : k.info made = info := by
    rw [hk, Known.info, hmade]
    exact congrArg (fun b => ({ info with returnsValue := b } : FunctionInfo)) hplain.symm
  have harity : (k.info made).arity = k.arity := by rw [hinfo, hk]
  have hkname : k.name = f := by rw [hk]
  rw [← hk]
  subst hrow
  rw [← hinfo]
  have helsewhere : ∀ s' ≠ p, ∀ fs, Owns t made s' fs →
      Owns (t.setMeaning (k.row made) (.function (k.info made))) made s' fs :=
    fun s' hne fs ho => ho.elsewhere (fun hc => hne (Option.some.inj (hc.symm.trans hscope))) hlt
  have hinner : ∀ e fs o, outer = ⟨e, fs⟩ :: o → Nest (t.setMeaning (k.row made)
      (.function (k.info made))) made (⟨e, k :: fs⟩ :: o) p rows := by
    rintro e fs o rfl
    refine hout.change ht.nested (fun _ _ _ hat => hat)
      (fun s' hs' => helsewhere s' (Nat.ne_of_lt hs')) ?_
    exact hout.owns.insert hscope hnone (hkname ▸ hname) (hkname ▸ hx) harity
      fun k' hk' heq => hlatest _ rfl k' hk' (heq.trans hkname)
  obtain _ | ⟨⟨e, fs⟩, o⟩ := outer
  · cases hout
  · exact .body hat (helsewhere s (Nat.ne_of_gt (hat.lt ht.nested)) _ hown) (hinner e fs o rfl)

end Heading

end Syntax

end OnePass
