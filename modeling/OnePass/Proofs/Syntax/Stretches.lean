import OnePass.Proofs.Emission.Unmoved
import OnePass.Proofs.Syntax.Phrases

/-!
# The functions that a text has made known

The whole text, every function and every loop is a stretch with functions of its own. A function is
known from the end of its parameters on, in the stretch that its definition stands in. When its
definition has ended, it takes the place of those before it in the stretch that have its name and
as many parameters. A call selects among the functions in the stretches around it.

* `Known`, `Stretch`: functions that are known, and the stretches around a place.
* `Stretch.behind`: **the stretches behind an action.**
* `Stretch.visible`, `Stretch.callee?`: what a call may select, and what it does.
* `Owns`, `Nest`: scopes with the functions of stretches. `Nest.mono`, `Nest.change`: what may happen
  to them. `Nest.insideBody`: the functions whose bodies are around.
* `Nest.visibleFunctions`, `Nest.callee?`: **functions are looked up alike** in scopes and stretches.
-/

namespace OnePass.Syntax

open Emission Names
open Grammar (Action)

/-- **A function that a text has made known.** -/
structure Known where
  name : String
  arity : Nat
  /-- The place of the mark behind its parameters. -/
  place : Nat
  /-- Whether its definition has ended. -/
  ended : Bool
  /-- Whether a return with a value stands in its body, and not in that of a function in it. -/
  givesValue : Bool
deriving DecidableEq

/-- What is known of a function from the end of its parameters on. -/
def Known.title (k : Known) : String × Nat × Nat := (k.name, k.arity, k.place)

/-- What a stretch of text is. -/
inductive Extent where
  | text
  | loop
  /-- A definition whose parameters are being read, with their number so far. -/
  | header (name : String) (count : Nat)
  | body
deriving DecidableEq

/-- **A stretch of text** and the functions that are known in it, the latest first. -/
structure Stretch where
  extent : Extent
  known : List Known
deriving DecidableEq

namespace Stretch

/-- One more function is known in the innermost stretch. -/
def add (k : Known) : List Stretch → List Stretch
  | [] => []
  | s :: outer => { s with known := k :: s.known } :: outer

/-- The latest function of the innermost stretch changes. -/
def change (f : Known → Known) : List Stretch → List Stretch
  | [] => []
  | s :: outer => { s with known := s.known.modifyHead f } :: outer

/-- The latest function takes the place of those with its name and as many parameters. -/
def settled : List Known → List Known
  | [] => []
  | k :: before => k :: before.filter fun k' => ¬(k'.name = k.name ∧ k'.arity = k.arity)

/-- The innermost stretch with its latest function settled. -/
def settle : List Stretch → List Stretch
  | [] => []
  | s :: outer => { s with known := settled s.known } :: outer

/-- A return with a value belongs to the innermost function, out through the loops: the latest of
the stretch that its definition stands in. -/
def giveValue : List Stretch → List Stretch
  | ⟨.loop, known⟩ :: outer => ⟨.loop, known⟩ :: giveValue outer
  | ⟨.body, known⟩ :: outer => ⟨.body, known⟩ :: change ({ · with givesValue := true }) outer
  | stretches => stretches

/-- **The stretches behind an action,** which stands at this place behind this name. Functions and
loops are stretches of their own, which end with them. -/
def behind (stretches : List Stretch) (a : Action) (x : String) (place : Nat) : List Stretch :=
  match a with
  | .enterFunction => ⟨.header x 0, []⟩ :: stretches
  | .param =>
    match stretches with
    | ⟨.header f count, known⟩ :: outer => ⟨.header f (count + 1), known⟩ :: outer
    | _ => stretches
  | .paramsDone =>
    match stretches with
    | ⟨.header f count, known⟩ :: outer => ⟨.body, known⟩ :: add ⟨f, count, place, false, false⟩ outer
    | _ => stretches
  | .returnValue => giveValue stretches
  | .exitFunction => change ({ · with ended := true }) stretches.tail
  | .checkOverload => settle stretches
  | .loopBegin => ⟨.loop, []⟩ :: stretches
  | .loopEnd => stretches.tail
  | _ => stretches

/-- **The functions of a name that can be seen,** those of the nearest stretch first and the latest
first in each. -/
def visible (stretches : List Stretch) (x : String) : List Known :=
  stretches.flatMap fun s => s.known.filter fun k => k.name = x

/-- **The function that a call selects:** the first of those with as many parameters. -/
def callee? (stretches : List Stretch) (x : String) (count : Nat) : Option Known :=
  (visible stretches x).find? fun k => k.arity = count

/-- All functions that are known in some stretch. -/
def all (stretches : List Stretch) : List Known := stretches.flatMap (·.known)

@[simp] theorem all_nil : all [] = [] := rfl

@[simp] theorem all_cons (s : Stretch) (outer : List Stretch) :
    all (s :: outer) = s.known ++ all outer := rfl

end Stretch

/-- What a function has become whose parameters have been read. -/
structure Made where
  row : Nat
  info : FunctionInfo

/-- The row of a function that is known. -/
def Known.row (made : Nat → Made) (k : Known) : Nat := (made k.place).row

/-- What its row says of it. -/
def Known.info (made : Nat → Made) (k : Known) : FunctionInfo :=
  { (made k.place).info with returnsValue := k.givesValue }

/-- **A function stands on its row,** under its name. -/
structure Stands (t : SymbolTable) (made : Nat → Made) (k : Known) : Prop where
  function : t.function? (k.row made) = some (k.info made)
  name : t.name? (k.row made) = some k.name
  arity : (k.info made).arity = k.arity
  unmarked : Unmarked k.name

/-- **A scope owns these functions,** and no others that live. Those of one name are on rows in their
order. -/
structure Owns (t : SymbolTable) (made : Nat → Made) (s : Nat) (fs : List Known) : Prop where
  stands : ∀ k ∈ fs, Stands t made k
  placed : ∀ k ∈ fs, t.scope? (k.row made) = some s
  known : ∀ i, t.scope? i = some s → (t.function? i).isSome → ¬t.Retired i →
    ∃ k ∈ fs, k.row made = i
  order : fs.Pairwise fun k k' => k.name = k'.name → k'.row made < k.row made

/-- **Scopes with the functions of stretches:** the current one and those around it, with the rows of
the definitions whose bodies they are. The function of such a definition is the latest of the
stretch that it stands in. -/
inductive Nest (t : SymbolTable) (made : Nat → Made) : List Stretch → Nat → List Nat → Prop
  | text {fs : List Known} (ho : Owns t made Scopes.outermost fs) :
      Nest t made [⟨.text, fs⟩] Scopes.outermost []
  | loop {s p : Nat} {fs : List Known} {outer : List Stretch} {rows : List Nat}
      (hat : t.scopes.At s .loop (some p)) (ho : Owns t made s fs) (h : Nest t made outer p rows) :
      Nest t made (⟨.loop, fs⟩ :: outer) s rows
  | body {s p : Nat} {fs : List Known} {e : Extent} {k : Known} {before : List Known}
      {outer : List Stretch} {rows : List Nat}
      (hat : t.scopes.At s (.body (k.row made)) (some p))
      (ho : Owns t made s fs) (h : Nest t made (⟨e, k :: before⟩ :: outer) p rows) :
      Nest t made (⟨.body, fs⟩ :: ⟨e, k :: before⟩ :: outer) s (k.row made :: rows)

section Scopes

variable {t t' : SymbolTable} {made : Nat → Made} {k : Known} {fs fs' : List Known} {s p i : Nat}
  {e : Extent} {outer stretches : List Stretch} {rows : List Nat} {x : String}

section Owns

/-- **Functions stand as they did** where the rows of their scope do, and all other rows that come
into it stand for none. -/
theorem Owns.congr (h : Owns t made s fs)
    (hold : ∀ i, t.scope? i = some s → t'.scope? i = some s ∧ t'.function? i = t.function? i ∧
      ∀ n, t.name? i = some n → t'.name? i = some n)
    (hnew : ∀ i, t'.scope? i = some s → (t'.function? i).isSome → t.scope? i = some s) :
    Owns t' made s fs where
  stands k hk := by
    obtain ⟨-, hf, hn⟩ := hold _ (h.placed k hk)
    obtain ⟨hfunction, hname, harity, hx⟩ := h.stands k hk
    exact ⟨hf.trans hfunction, hn _ hname, harity, hx⟩
  placed k hk := (hold _ (h.placed k hk)).1
  known i hi hsome hlive := by
    have hs := hnew i hi hsome
    obtain ⟨-, hf, hn⟩ := hold i hs
    refine h.known i hs (hf ▸ hsome) fun hretired => hlive ?_
    obtain ⟨name, hname, hmarked⟩ := SymbolTable.retired_iff_name?.1 hretired
    exact SymbolTable.retired_iff_name?.2 ⟨name, hn name hname, hmarked⟩
  order := h.order

/-- So they do where rows keep their names, scopes and functions. -/
theorem Owns.keep (h : Owns t made s fs) (hl : t.Lengthens x t')
    (hf : ∀ i, t'.function? i = t.function? i) : Owns t' made s fs := by
  refine h.congr (fun i hi => ⟨hl.places i s hi, hf i, fun _ => hl.name?⟩) fun i hi hsome => ?_
  rw [hf] at hsome
  obtain ⟨info, hinfo⟩ := Option.isSome_iff_exists.1 hsome
  obtain ⟨s₀, hs₀⟩ := SymbolTable.exists_scope? hinfo
  obtain rfl : s₀ = s := Option.some.inj ((hl.places i s₀ hs₀).symm.trans hi)
  exact hs₀

/-- A scope without rows owns no functions. -/
theorem owns_nil (h : ∀ i, t.scope? i ≠ some s) : Owns t made s [] :=
  ⟨nofun, nofun, fun i hi => absurd hi (h i), .nil⟩

/-- The functions of a name are on the rows that carry it. -/
theorem Owns.functionsIn (h : Owns t made s fs) (ht : t.Housed) (hs : t.Opened s)
    (hx : Unmarked x) :
    t.functionsIn s x = (fs.filter fun k => k.name = x).map (·.row made) := by
  refine SymbolTable.functionsIn_eq ht hs ?_ fun i => ?_
  · rw [List.pairwise_map]
    refine (h.order.filter _).imp_of_mem fun {k k'} hk hk' hlt => hlt ?_
    have heq := of_decide_eq_true (List.mem_filter.1 hk).2
    exact heq.trans (of_decide_eq_true (List.mem_filter.1 hk').2).symm
  · simp only [List.mem_map, List.mem_filter, decide_eq_true_eq]
    constructor
    · rintro ⟨k, ⟨hk, rfl⟩, rfl⟩
      exact ⟨h.placed k hk, (h.stands k hk).name, by rw [(h.stands k hk).function]; rfl⟩
    · rintro ⟨hi, hname, hsome⟩
      have hlive : ¬t.Retired i := fun hretired => by
        obtain ⟨name, hname', hmarked⟩ := SymbolTable.retired_iff_name?.1 hretired
        rw [hname, Option.some.injEq] at hname'
        exact hmarked (hname' ▸ hx)
      obtain ⟨k, hk, rfl⟩ := h.known i hi hsome hlive
      rw [(h.stands k hk).name, Option.some.injEq] at hname
      exact ⟨k, ⟨hk, hname⟩, rfl⟩

end Owns

section Nest

theorem Nest.owns (h : Nest t made (⟨e, fs⟩ :: outer) s rows) : Owns t made s fs := by
  cases h <;> assumption

/-- **Scopes may change in what their functions do not notice.** -/
theorem Nest.mono (h : Nest t made stretches s rows) (hn : t.scopes.Nested)
    (hat : ∀ s r p, t.scopes.At s r p → t'.scopes.At s r p)
    (hown : ∀ s' ≤ s, ∀ fs, Owns t made s' fs → Owns t' made s' fs) :
    Nest t' made stretches s rows := by
  induction h with
  | text ho => exact .text (hown _ (Nat.le_refl _) _ ho)
  | loop hs ho _ ih =>
    refine .loop (hat _ _ _ hs) (hown _ (Nat.le_refl _) _ ho) (ih fun s' hle => hown s' ?_)
    exact Nat.le_trans hle (Nat.le_of_lt (hs.lt hn))
  | body hs ho _ ih =>
    refine .body (hat _ _ _ hs) (hown _ (Nat.le_refl _) _ ho) (ih fun s' hle => hown s' ?_)
    exact Nat.le_trans hle (Nat.le_of_lt (hs.lt hn))

/-- **The innermost stretch may get other functions,** if those further out stay as they are. -/
theorem Nest.change (h : Nest t made (⟨e, fs⟩ :: outer) s rows) (hn : t.scopes.Nested)
    (hat : ∀ s r p, t.scopes.At s r p → t'.scopes.At s r p)
    (hown : ∀ s' < s, ∀ fs, Owns t made s' fs → Owns t' made s' fs) (ho : Owns t' made s fs') :
    Nest t' made (⟨e, fs'⟩ :: outer) s rows := by
  cases h with
  | text => exact .text ho
  | loop hs _ h =>
    refine .loop (hat _ _ _ hs) ho (h.mono hn hat fun s' hle => hown s' ?_)
    exact Nat.lt_of_le_of_lt hle (hs.lt hn)
  | body hs _ h =>
    refine .body (hat _ _ _ hs) ho (h.mono hn hat fun s' hle => hown s' ?_)
    exact Nat.lt_of_le_of_lt hle (hs.lt hn)

/-- **The functions whose bodies are around a scope** are those of these definitions. -/
theorem Nest.insideBody (h : Nest t made stretches s rows) (hr : t.scopes.Rooted)
    (hn : t.scopes.Nested) : t.scopes.insideBody s i = rows.contains i := by
  unfold Scopes.insideBody
  induction h with
  | text =>
    rw [hr.enclosing, List.any_cons, hr.at.region?]
    rfl
  | loop hs _ _ ih =>
    rw [hs.enclosing hn, List.any_cons, hs.region?, ih]
    rfl
  | body hs _ _ ih =>
    rw [hs.enclosing hn, List.any_cons, hs.region?, ih, List.contains_cons]
    congr 1
    exact decide_eq_decide.2 ⟨fun heq => by cases heq; rfl, fun heq => by rw [heq]⟩

/-- **The functions of a name that can be seen** are those of the stretches. -/
theorem Nest.visibleFunctions (h : Nest t made stretches s rows) (ht : t.Housed)
    (hr : t.scopes.Rooted) (hs : ∀ s' ∈ t.scopes.enclosing s, t.Opened s') (hx : Unmarked x) :
    t.visibleFunctions s x = (Stretch.visible stretches x).map (·.row made) := by
  unfold SymbolTable.visibleFunctions Stretch.visible
  induction h with
  | text ho =>
    rw [hr.enclosing] at hs ⊢
    simp [ho.functionsIn ht (hs _ List.mem_cons_self) hx]
  | loop hat ho _ ih =>
    rw [hat.enclosing ht.nested] at hs ⊢
    obtain ⟨hs, houter⟩ := List.forall_mem_cons.1 hs
    simp [ho.functionsIn ht hs hx, ih houter]
  | body hat ho _ ih =>
    rw [hat.enclosing ht.nested] at hs ⊢
    obtain ⟨hs, houter⟩ := List.forall_mem_cons.1 hs
    rw [List.flatMap_cons, List.flatMap_cons, List.map_append, ho.functionsIn ht hs hx, ih houter]

/-- All functions that are known stand on their rows. -/
theorem Nest.stands (h : Nest t made stretches s rows) (hk : k ∈ Stretch.all stretches) :
    Stands t made k := by
  induction h with
  | text ho => exact ho.stands k (by simpa using hk)
  | loop _ ho _ ih | body _ ho _ ih =>
    rw [Stretch.all_cons, List.mem_append] at hk
    rcases hk with hk | hk
    · exact ho.stands k hk
    · exact ih hk

theorem Stretch.mem_all_of_visible (h : k ∈ Stretch.visible stretches x) : k ∈ Stretch.all stretches := by
  obtain ⟨st, hst, hk⟩ := List.mem_flatMap.1 h
  exact List.mem_flatMap.2 ⟨st, hst, (List.mem_filter.1 hk).1⟩

/-- **A call selects the function that the stretches say.** -/
theorem Nest.callee? (h : Nest t made stretches s rows) (ht : t.Housed) (hr : t.scopes.Rooted)
    (hs : ∀ s' ∈ t.scopes.enclosing s, t.Opened s') (hx : Unmarked x) (count : Nat) :
    t.callee? s x count =
      (Stretch.callee? stretches x count).map fun k => (k.row made, k.info made) := by
  have hstands : ∀ k ∈ Stretch.visible stretches x, Stands t made k := fun k hk =>
    h.stands (Stretch.mem_all_of_visible hk)
  rw [SymbolTable.callee?, h.visibleFunctions ht hr hs hx, Stretch.callee?]
  generalize Stretch.visible stretches x = ks at hstands ⊢
  induction ks with
  | nil => rfl
  | cons k rest ih =>
    obtain ⟨hk, hrest⟩ := List.forall_mem_cons.1 hstands
    rw [List.map_cons, List.findSome?_cons, List.find?_cons, hk.function, Option.filter_some,
      hk.arity]
    by_cases hcount : k.arity = count
    · simp [hcount]
    · simp only [hcount, decide_false, Bool.false_eq_true, if_false, Option.map_none]
      exact ih hrest

end Nest

end Scopes

end OnePass.Syntax
