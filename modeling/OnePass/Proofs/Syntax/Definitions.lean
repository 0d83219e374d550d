import OnePass.Proofs.Syntax.Selecting

/-!
# The definitions of the functions that are known

A function that is known at a place is defined in the text. Either its definition has ended before the
place, and it gives a value just if a return with a value belongs to its body; or the place lies in
its body.

* `Statement.gives`, `blockGives`: whether a return with a value belongs to a body.
* `Layered`: marks that fall into definitions, loops and others. `layered_block`: those of a text.
* `Layered.turned`, `Trace.stretches_define`: the stretches behind them, and behind a definition.
* `Defined`, `Trace.defined_of_known`: **the definition of every function that is known.**
-/

namespace OnePass.Syntax

open OnePass.Derivation
open Grammar (Action Mark Terminal)

section Gives

mutual

/-- Whether a return with a value stands in a statement, but not in a definition in it. -/
def Statement.gives : Statement → Bool
  | .returnValue _ => true
  | .ifThen _ body | .loop _ body => blockGives body
  | .ifElse _ body other => blockGives body || blockGives other
  | _ => false

/-- **Whether a return with a value belongs to a body:** one that stands in none of the definitions in
it. -/
def blockGives : List Statement → Bool
  | [] => false
  | s :: rest => s.gives || blockGives rest

end

end Gives

section Layered

/-- Whether an action begins or ends a function or a loop, or changes what is known of one. -/
def isLayer : Action → Bool
  | .enterFunction | .param | .paramsDone | .returnValue | .exitFunction | .checkOverload
  | .loopBegin | .loopEnd => true
  | _ => false

/-- **Marks that fall into definitions,** loops and others, and whether a return with a value belongs to
the body that they stand in. -/
inductive Layered : List Mark → Bool → Prop
  | nil : Layered [] false
  | read {t : Terminal} {x : String} {v : List Mark} {gives : Bool} (h : Layered v gives) :
    Layered (.read t x :: v) gives
  | act {a : Action} {v : List Mark} {gives : Bool} (ha : isLayer a = false)
      (h : Layered v gives) : Layered (.act a :: v) gives
  | give {v : List Mark} {gives : Bool} (h : Layered v gives) :
    Layered (.act .returnValue :: v) true
  | loop {u v : List Mark} {inside gives : Bool} (hu : Layered u inside) (h : Layered v gives) :
    Layered (.act .loopBegin :: (u ++ .act .loopEnd :: v)) (inside || gives)
  | define (f : String) (params : List String) {body : List Statement} {v : List Mark} {gives : Bool}
      (hbody : Layered (blockMarks body) (blockGives body)) (h : Layered v gives) :
    Layered ((Statement.define f params body).marks ++ v) gives

variable {u v w : List Mark} {gives gives' : Bool} {e : Expr} {r : Relation}

theorem Layered.append (h : Layered u gives) (h' : Layered v gives') :
    Layered (u ++ v) (gives || gives') := by
  induction h with
  | nil => exact h'
  | read _ ih => exact .read ih
  | act ha _ ih => exact .act ha ih
  | give _ ih => exact .give ih
  | loop hu _ _ ih =>
    rw [List.cons_append, List.append_assoc, Bool.or_assoc]
    exact .loop hu ih
  | define f params hbody _ _ ih =>
    rw [List.append_assoc]
    exact .define f params hbody ih

/-- What only computes defines nothing. -/
theorem layered_of_computing (h : Computing v) : Layered v false := by
  induction v with
  | nil => exact .nil
  | cons k v ih =>
    cases k with
    | read t x => exact .read (ih (computing_read.1 h))
    | act a =>
      obtain ⟨ha, hv⟩ := computing_act.1 h
      refine .act ?_ (ih hv)
      cases a with
      | enterFunction | param | paramsDone | returnValue | exitFunction | checkOverload | loopBegin
      | loopEnd => cases ha
      | _ => rfl

mutual

theorem Statement.layered (s : Statement) : Layered s.marks s.gives := by
  cases s with
  | assign | assignElement | call | print | global => exact layered_of_computing (Statement.computing rfl)
  | returnValue e =>
    rw [Statement.marks]
    exact .read ((layered_of_computing e.computing).append (.give .nil))
  | returnNothing =>
    rw [Statement.marks]
    exact .read (.act rfl .nil)
  | leave exit =>
    rw [Statement.marks]
    cases exit <;> exact .read (.act rfl .nil)
  | define f params body =>
    have h := Layered.define f params (layered_block body) .nil
    rwa [List.append_nil] at h
  | ifThen test body =>
    rw [Statement.marks, Statement.gives, ← Bool.or_false (blockGives body)]
    exact .read ((layered_of_computing test.computing).append (.act rfl (.read
      ((layered_block body).append (.act rfl .nil)))))
  | ifElse test body other =>
    rw [Statement.marks, Statement.gives, ← Bool.or_false (blockGives other)]
    exact .read ((layered_of_computing test.computing).append (.act rfl (.read ((layered_block body).append
      (.read (.act rfl (.read ((layered_block other).append (.act rfl .nil)))))))))
  | loop test body =>
    have hinside : Layered (word .leftParen :: (test.marks ++ word .rightParen :: .act .save ::
        blockMarks body)) (blockGives body) :=
      .read ((layered_of_computing test.computing).append (.read (.act rfl (layered_block body))))
    have hloop := Layered.loop hinside .nil
    simp only [List.cons_append, List.append_assoc] at hloop
    rw [Statement.marks, Statement.gives, ← Bool.or_false (blockGives body)]
    exact .read hloop

/-- **The marks of a text** fall into definitions, loops and others. -/
theorem layered_block (b : List Statement) : Layered (blockMarks b) (blockGives b) := by
  cases b with
  | nil =>
    rw [blockMarks]
    exact .nil
  | cons s rest =>
    rw [blockMarks]
    exact s.layered.append (.read (layered_block rest))

end

end Layered

namespace Stretch

variable {a b : Bool} {k k' : Known} {known known' : List Known}
  {stretches stretches' stretches'' outer : List Stretch}

/-- The innermost stretch with these functions in place of its own. -/
def learn (known : List Known) : List Stretch → List Stretch
  | [] => []
  | s :: outer => { s with known := known } :: outer

/-- **The stretches behind marks** of the body that they stand in: the innermost one has learnt of
functions, and a return with a value may belong to the body. -/
def Turned (gives : Bool) (stretches stretches' : List Stretch) : Prop :=
  ∃ known, stretches' = learn known (if gives then giveValue stretches else stretches)

theorem learn_learn : learn known (learn known' stretches) = learn known stretches := by
  cases stretches <;> rfl

theorem exists_learn (stretches : List Stretch) : ∃ known, stretches = learn known stretches := by
  cases stretches with
  | nil => exact ⟨[], rfl⟩
  | cons s outer => exact ⟨s.known, rfl⟩

theorem giveValue_learn : giveValue (learn known stretches) = learn known (giveValue stretches) := by
  obtain _ | ⟨⟨e, fs⟩, outer⟩ := stretches
  · rfl
  · cases e <;> rfl

theorem giveValue_giveValue : giveValue (giveValue stretches) = giveValue stretches := by
  fun_induction giveValue stretches with
  | case1 known outer ih => rw [giveValue, ih]
  | case2 known outer =>
    obtain _ | ⟨⟨e, _ | ⟨latest, before⟩⟩, outer⟩ := outer <;> rfl
  | case3 stretches hloop hbody =>
    unfold giveValue
    split
    · exact absurd rfl (hloop _ _)
    · exact absurd rfl (hbody _ _)
    · rfl

theorem Turned.refl (stretches : List Stretch) : Turned false stretches stretches :=
  exists_learn stretches

theorem Turned.trans (h : Turned a stretches stretches') (h' : Turned b stretches' stretches'') :
    Turned (a || b) stretches stretches'' := by
  obtain ⟨known, rfl⟩ := h
  obtain ⟨known', rfl⟩ := h'
  refine ⟨known', ?_⟩
  cases b with
  | false =>
    rw [Bool.or_false]
    exact learn_learn
  | true =>
    rw [if_pos rfl, giveValue_learn, learn_learn, Bool.or_true, if_pos rfl]
    cases a with
    | false => rfl
    | true => rw [if_pos rfl, giveValue_giveValue]

/-- Behind a loop the stretches around it are as they were, but that a return with a value in it
belongs to the body around it. -/
theorem Turned.loop (h : Turned a (⟨.loop, []⟩ :: stretches) stretches') :
    Turned a stretches stretches'.tail := by
  obtain ⟨known, rfl⟩ := h
  obtain ⟨known', hlearn⟩ := exists_learn (if a then giveValue stretches else stretches)
  refine ⟨known', hlearn ▸ ?_⟩
  cases a <;> rfl

/-- Behind a definition its function is settled. -/
theorem Turned.define {f : String} {count place : Nat}
    (h : Turned a (⟨.body, []⟩ :: add ⟨f, count, place, false, false⟩ stretches) stretches') :
    settle (change ({ · with ended := true }) stretches'.tail) =
      settle (add ⟨f, count, place, true, a⟩ stretches) := by
  obtain ⟨known, rfl⟩ := h
  cases stretches <;> cases a <;> rfl

theorem turned_settle (k : Known) (stretches : List Stretch) :
    Turned false stretches (settle (add k stretches)) := by
  cases stretches with
  | nil => exact ⟨[], rfl⟩
  | cons s outer => exact ⟨settled (k :: s.known), rfl⟩

/-- **Every body is that of a function whose definition has not ended.** -/
def Open : List Stretch → Prop
  | [] => True
  | s :: outer => (s.extent = .body → ∀ k, latest? outer = some k → k.ended = false) ∧ Open outer

theorem open_learn (h : Open stretches) : Open (learn known stretches) := by
  cases stretches with
  | nil => exact h
  | cons s outer => exact h

theorem open_giveValue (h : Open stretches) : Open (giveValue stretches) := by
  fun_induction giveValue stretches with
  | case1 known outer ih => exact ⟨by simp, ih h.2⟩
  | case2 known outer =>
    -- the function that is changed is that of the body, and stays one whose definition goes on
    obtain ⟨hlatest, houter⟩ := h
    obtain _ | ⟨⟨e, _ | ⟨latest, before⟩⟩, outer⟩ := outer
    · exact ⟨by simp [change, latest?], houter⟩
    · exact ⟨by simp [change, latest?], houter⟩
    · refine ⟨fun _ k hk => ?_, houter⟩
      obtain rfl := Option.some.inj hk
      exact hlatest rfl latest rfl
  | case3 => exact h

theorem Turned.open (h : Turned a stretches stretches') (ho : Open stretches) :
    Open stretches' := by
  obtain ⟨known, rfl⟩ := h
  refine open_learn ?_
  split
  · exact open_giveValue ho
  · exact ho

theorem mem_all_tail (h : k ∈ all stretches.tail) : k ∈ all stretches := by
  cases stretches with
  | nil => exact h
  | cons s outer => exact List.mem_append_right _ h

theorem mem_all_add (h : k ∈ all (add k' stretches)) : k = k' ∨ k ∈ all stretches := by
  cases stretches with
  | nil => cases h
  | cons s outer =>
    rcases List.mem_append.1 h with h | h
    · exact (List.mem_cons.1 h).imp_right (List.mem_append_left _)
    · exact .inr (List.mem_append_right _ h)

/-- In the body of a function whose definition has not ended. -/
theorem open_body (h : Open stretches) (hk : k.ended = false) :
    Open (⟨.body, known⟩ :: add k stretches) := by
  cases stretches with
  | nil => exact ⟨by simp [add, latest?], h⟩
  | cons s outer =>
    refine ⟨fun _ k' hk' => ?_, h⟩
    obtain rfl := Option.some.inj hk'
    exact hk

/-- **A function changes by a return only as long as its definition has not ended.** -/
theorem mem_all_giveValue_open (h : Open stretches) (hk : k ∈ all (giveValue stretches)) :
    k ∈ all stretches ∨ k.ended = false ∧ ∃ k' ∈ all stretches, k.title = k'.title ∧ k'.ended = false := by
  fun_induction giveValue stretches with
  | case1 known outer ih =>
    rcases List.mem_append.1 hk with hk | hk
    · exact .inl (List.mem_append_left _ hk)
    · refine (ih h.2 hk).imp (List.mem_append_right _) ?_
      rintro ⟨hended, k', hk', heq⟩
      exact ⟨hended, k', List.mem_append_right _ hk', heq⟩
  | case2 known outer =>
    obtain ⟨hlatest, -⟩ := h
    rcases List.mem_append.1 hk with hk | hk
    · exact .inl (List.mem_append_left _ hk)
    · obtain _ | ⟨⟨e, _ | ⟨latest, before⟩⟩, outer⟩ := outer
      · cases hk
      · exact .inl (List.mem_append_right _ hk)
      · have hended := hlatest rfl latest rfl
        rcases List.mem_cons.1 hk with rfl | hk
        · exact .inr ⟨hended, latest, List.mem_append_right _ List.mem_cons_self, rfl, hended⟩
        · exact .inl (List.mem_append_right _ (List.mem_cons_of_mem _ hk))
  | case3 => exact .inl hk

end Stretch

/-- **The definition of a function that is known** at a place, and up to another one if the definition
goes on: it has ended before the place, and the function gives a value if its body does, or else it ends
behind the other place. -/
def Defined (w : List Mark) (i m : Nat) (k : Known) : Prop :=
  ∃ (n e : Nat) (params : List String) (body : Block),
    Span w n e (Statement.define k.name params body).marks ∧ params.length = k.arity ∧
      k.place + 1 = n + (headerMarks k.name params).length ∧ k.place < i ∧
        if k.ended then e ≤ i ∧ k.givesValue = blockGives body else m + 2 ≤ e

section Defined

variable {w v : List Mark} {i j m d : Nat} {k k' : Known} {gives : Bool}

theorem Defined.mono (h : Defined w i m k) (hij : i ≤ j) (hd : d ≤ m) : Defined w j d k := by
  obtain ⟨n, e, params, body, hspan, hcount, hplace, hlt, hend⟩ := h
  refine ⟨n, e, params, body, hspan, hcount, hplace, Nat.lt_of_lt_of_le hlt hij, ?_⟩
  cases hended : k.ended with
  | true =>
    rw [if_pos hended] at hend
    exact ⟨Nat.le_trans hend.1 hij, hend.2⟩
  | false =>
    rw [if_neg (by simp [hended])] at hend
    exact Nat.le_trans (Nat.add_le_add_right hd 2) hend

/-- It does not matter yet whether a function gives a value whose definition has not ended. -/
theorem Defined.of_title (h : Defined w i m k') (htitle : k.title = k'.title) (hk : k.ended = false)
    (hk' : k'.ended = false) : Defined w i m k := by
  obtain ⟨n, e, params, body, hspan, hcount, hplace, hlt, hend⟩ := h
  obtain ⟨hname, harity, hsame⟩ : k.name = k'.name ∧ k.arity = k'.arity ∧ k.place = k'.place := by
    simpa [Known.title] using htitle
  rw [if_neg (by simp [hk'])] at hend
  refine ⟨n, e, params, body, hname ▸ hspan, harity ▸ hcount, ?_, hsame ▸ hlt, ?_⟩
  · rw [hsame, hname]
    exact hplace
  · rwa [if_neg (by simp [hk])]

end Defined

end OnePass.Syntax

namespace OnePass.Derivation

open Syntax Stretch
open Grammar (Action Mark Terminal)

section Definitions

variable {E : Emission.Setting} {w v : List Mark} {i j m n e d : Nat} {gives : Bool} {f : String}
  {params : List String} {body : Block} (tr : Trace E w)

/-- The parts of a definition: its header, its body, and the two marks that end it. -/
theorem span_define (h : Span w n e (Statement.define f params body).marks) : ∃ p m : Nat,
    p + 1 = n + (headerMarks f params).length ∧ Span w n (p + 1) (headerMarks f params) ∧
      w[p]? = some (.act .paramsDone) ∧ w[p + 1]? = some (word .colon) ∧
        Span w (p + 2) m (blockMarks body) ∧ w[m]? = some (.act .exitFunction) ∧
          w[m + 1]? = some (.act .checkOverload) ∧ e = m + 2 := by
  rw [Statement.marks_define] at h
  simp only [span_append, span_cons, span_nil] at h
  obtain ⟨l, hheader, hcolon, m, hbody, hexit, hcheck, rfl⟩ := h
  have hl := hheader.eq_add
  have hspan := hheader
  rw [headerMarks] at hspan
  simp only [span_append, span_cons, span_nil] at hspan
  obtain ⟨-, -, -, -, j, -, -, hpublish, rfl⟩ := hspan
  exact ⟨j + 1, m, hl, hheader, hpublish, hcolon, hbody, hexit, hcheck, rfl⟩

theorem Trace.stretches_layer {a : Action} (ha : isLayer a = false)
    (h : w[i]? = some (.act a)) : tr.stretches (i + 1) = tr.stretches i := by
  rw [tr.stretches_act h]
  cases a with
  | enterFunction | param | paramsDone | returnValue | exitFunction | checkOverload | loopBegin
  | loopEnd => cases ha
  | _ => rfl

/-- The stretches in the body of a definition. -/
theorem Trace.stretches_body {p : Nat} (h : Span w n (p + 1) (headerMarks f params))
    (hp : w[p]? = some (.act .paramsDone)) (hcolon : w[p + 1]? = some (word .colon)) :
    tr.stretches (p + 2) =
      ⟨.body, []⟩ :: add ⟨f, params.length, p, false, false⟩ (tr.stretches n) := by
  rw [tr.stretches_read hcolon, tr.stretches_act hp, tr.stretches_header h]
  rfl

/-- **Behind a definition its function is settled,** and gives a value if its body does. -/
theorem Trace.stretches_define {p : Nat}
    (hbody : Turned gives (tr.stretches (p + 2)) (tr.stretches m))
    (h : Span w n (p + 1) (headerMarks f params)) (hp : w[p]? = some (.act .paramsDone))
    (hcolon : w[p + 1]? = some (word .colon)) (hexit : w[m]? = some (.act .exitFunction))
    (hcheck : w[m + 1]? = some (.act .checkOverload)) : tr.stretches (m + 2) =
      settle (add ⟨f, params.length, p, true, gives⟩ (tr.stretches n)) := by
  rw [tr.stretches_body h hp hcolon] at hbody
  rw [tr.stretches_act hcheck, tr.stretches_act hexit]
  exact hbody.define

/-- **The stretches behind marks** that fall into definitions, loops and others. -/
theorem Trace.turned_layered (hl : Layered v gives) (h : Span w i j v) :
    Turned gives (tr.stretches i) (tr.stretches j) := by
  induction hl generalizing i j with
  | nil =>
    obtain rfl : i = j := h
    exact .refl _
  | read _ ih => exact tr.stretches_read h.1 ▸ ih h.2
  | act ha _ ih => exact tr.stretches_layer ha h.1 ▸ ih h.2
  | give _ ih =>
    have hgive : Turned true (tr.stretches i) (tr.stretches (i + 1)) := by
      rw [tr.stretches_act h.1]
      exact exists_learn _
    have hrest := hgive.trans (ih h.2)
    rwa [Bool.true_or] at hrest
  | loop _ _ hinside hrest =>
    simp only [span_cons, span_append] at h
    obtain ⟨hbegin, n, hu, hend, hv⟩ := h
    have hbody := hinside hu
    rw [tr.stretches_act hbegin] at hbody
    have hloop := Turned.loop hbody
    exact Turned.trans (tr.stretches_act hend ▸ hloop) (hrest hv)
  | define f params hbody _ hinside hrest =>
    rw [span_append] at h
    obtain ⟨e, hdefine, hv⟩ := h
    obtain ⟨p, m, -, hheader, hp, hcolon, hspan, hexit, hcheck, rfl⟩ := span_define hdefine
    have hend := tr.stretches_define (hinside hspan) hheader hp hcolon hexit hcheck
    exact Turned.trans (hend ▸ turned_settle _ (tr.stretches i)) (hrest hv)

/-- What stands between two marks is one of the marks between them. -/
theorem mem_of_span (h : Span w i j v) (hi : i ≤ d) (hj : d < j) {k : Mark} (hk : w[d]? = some k) :
    k ∈ v := by
  induction v generalizing i with
  | nil =>
    obtain rfl : i = j := h
    exact absurd hi (Nat.not_le.2 hj)
  | cons k' v ih =>
    rcases Nat.eq_or_lt_of_le hi with rfl | hlt
    · rw [h.1] at hk
      exact Option.some.inj hk ▸ List.mem_cons_self
    · exact List.mem_cons_of_mem _ (ih h.2 hlt)

/-- **All functions that are known at the calls** between two places are defined in the text. -/
def Trace.Explains (tr : Trace E w) (i j : Nat) : Prop :=
  ∀ d, i ≤ d → d < j → w[d]? = some (.act .dispatch) → ∀ k ∈ all (tr.stretches d), Defined w d d k

theorem Trace.Explains.cons (hk : ∀ k ∈ all (tr.stretches i), Defined w i m k) (hi : i ≤ m)
    (h : tr.Explains (i + 1) j) : tr.Explains i j := by
  intro d hd hj hcall k hmem
  rcases Nat.eq_or_lt_of_le hd with rfl | hlt
  · exact (hk k hmem).mono (Nat.le_refl _) hi
  · exact h d hlt hj hcall k hmem

theorem Trace.Explains.append (h : tr.Explains i n) (h' : tr.Explains n j) : tr.Explains i j := by
  intro d hd hj hcall
  rcases Nat.lt_or_ge d n with hlt | hge
  · exact h d hd hlt hcall
  · exact h' d hge hj hcall

/-- There are no calls among these marks. -/
theorem Trace.explains_of_not_mem (h : Span w i j v) (hv : .act .dispatch ∉ v) :
    tr.Explains i j :=
  fun _ hi hj hcall => absurd (mem_of_span h hi hj hcall) hv

theorem not_mem_header (f : String) (params : List String) :
    .act .dispatch ∉ headerMarks f params := by
  have hparams : Mark.act .dispatch ∉ paramMarks params := fun hmem => by
    rcases mem_paramMarks hmem with h | ⟨x, h⟩ | h <;> cases h
  simp [headerMarks, word, nameMark, hparams]

/-- **All functions that are known are defined,** in front of marks that fall into definitions, loops
and others, at all calls among them and behind them. -/
theorem Trace.explains_layered (hl : Layered v gives) (h : Span w i j v) (hm : j ≤ m)
    (ho : Open (tr.stretches i)) (hk : ∀ k ∈ all (tr.stretches i), Defined w i m k) :
    (∀ k ∈ all (tr.stretches j), Defined w j m k) ∧ tr.Explains i j := by
  -- the end `m` of the body around is general, since that of a definition in it comes earlier
  induction hl generalizing i j m with
  | nil =>
    obtain rfl : i = j := h
    exact ⟨hk, fun d hi hj => absurd hi (Nat.not_le.2 hj)⟩
  | read _ ih =>
    have hsame := tr.stretches_read h.1
    have hi : i + 1 ≤ m := Nat.le_trans (span_le h.2) hm
    obtain ⟨hbehind, hcalls⟩ := ih h.2 hm (hsame ▸ ho) fun k hmem =>
      (hk k (hsame ▸ hmem)).mono (Nat.le_succ i) (Nat.le_refl m)
    exact ⟨hbehind, .cons tr hk (by omega) hcalls⟩
  | act ha _ ih =>
    have hsame := tr.stretches_layer ha h.1
    have hi : i + 1 ≤ m := Nat.le_trans (span_le h.2) hm
    obtain ⟨hbehind, hcalls⟩ := ih h.2 hm (hsame ▸ ho) fun k hmem =>
      (hk k (hsame ▸ hmem)).mono (Nat.le_succ i) (Nat.le_refl m)
    exact ⟨hbehind, .cons tr hk (by omega) hcalls⟩
  | give _ ih =>
    have hgive : tr.stretches (i + 1) = giveValue (tr.stretches i) := tr.stretches_act h.1
    have hi : i + 1 ≤ m := Nat.le_trans (span_le h.2) hm
    obtain ⟨hbehind, hcalls⟩ := ih h.2 hm (hgive ▸ open_giveValue ho) fun k hmem => by
      rw [hgive] at hmem
      rcases mem_all_giveValue_open ho hmem with hmem | ⟨hended, k', hk', htitle, hended'⟩
      · exact (hk k hmem).mono (Nat.le_succ i) (Nat.le_refl m)
      · exact ((hk k' hk').of_title htitle hended hended').mono (Nat.le_succ i) (Nat.le_refl m)
    exact ⟨hbehind, .cons tr hk (by omega) hcalls⟩
  | loop hu _ hinside hrest =>
    simp only [span_cons, span_append] at h
    obtain ⟨hbegin, n, hbody, hend, hv⟩ := h
    have hin : i + 1 ≤ n := span_le hbody
    have hnj : n + 1 ≤ j := span_le hv
    have hopened : tr.stretches (i + 1) = ⟨.loop, []⟩ :: tr.stretches i := tr.stretches_act hbegin
    have hclosed : tr.stretches (n + 1) = (tr.stretches n).tail := tr.stretches_act hend
    -- what is known in the loop is known around it, up to the functions that the loop forgets
    obtain ⟨hbefore, hcalls⟩ := hinside hbody (Nat.le_trans (by omega) hm)
      (hopened ▸ ⟨by simp, ho⟩) fun k hmem =>
        (hk k (by rwa [hopened] at hmem)).mono (Nat.le_succ i) (Nat.le_refl m)
    have hturned := Turned.loop (hopened ▸ tr.turned_layered hu hbody)
    obtain ⟨hbehind, hcalls'⟩ := hrest hv hm (hclosed ▸ hturned.open ho) fun k hmem => by
      refine (hbefore k ?_).mono (Nat.le_succ n) (Nat.le_refl m)
      rw [hclosed] at hmem
      exact mem_all_tail hmem
    exact ⟨hbehind, .cons tr hk (by omega)
      (hcalls.append tr (.cons tr hbefore (by omega) hcalls'))⟩
  | @define f params body v gives hbody _ hinside hrest =>
    rw [span_append] at h
    obtain ⟨e, hdefine, hv⟩ := h
    obtain ⟨p, n, hplace, hheader, hp, hcolon, hspan, hexit, hcheck, rfl⟩ := span_define hdefine
    have hip : i < p + 1 := by
      have hpos : 0 < (headerMarks f params).length := by simp [headerMarks]
      omega
    have hpn : p + 2 ≤ n := span_le hspan
    have hnj : n + 2 ≤ j := span_le hv
    have hbegun := tr.stretches_body hheader hp hcolon
    have hended := tr.stretches_define (tr.turned_layered hbody hspan) hheader hp hcolon hexit hcheck
    -- in the body the function itself is known, whose definition goes on
    obtain ⟨-, hcalls⟩ := hinside hspan (Nat.le_refl n) (hbegun ▸ open_body ho rfl) fun k hmem => by
      rw [hbegun] at hmem
      rcases mem_all_add hmem with rfl | hmem
      · refine ⟨i, n + 2, params, body, hdefine, rfl, hplace, Nat.lt_succ_of_lt (Nat.lt_succ_self p), ?_⟩
        exact Nat.le_refl _
      · exact (hk k hmem).mono (by omega) (by omega)
    -- behind it, it has ended, and all others are as they were
    obtain ⟨hbehind, hcalls'⟩ := hrest hv hm (hended ▸ (turned_settle _ _).open ho) fun k hmem => by
      rw [hended] at hmem
      rcases mem_all_add (mem_all_settle hmem) with rfl | hmem
      · refine ⟨i, n + 2, params, body, hdefine, rfl, hplace, ?_, Nat.le_refl _, rfl⟩
        dsimp only
        omega
      · exact (hk k hmem).mono (by omega) (Nat.le_refl m)
    have hbefore : tr.Explains i (p + 2) :=
      (tr.explains_of_not_mem hheader (not_mem_header f params)).append tr
        (tr.explains_of_not_mem (v := [word .colon]) ⟨hcolon, rfl⟩ (by simp [word]))
    have hafter : tr.Explains n (n + 2) :=
      tr.explains_of_not_mem (v := [.act .exitFunction, .act .checkOverload]) ⟨hexit, hcheck, rfl⟩
        (by simp)
    exact ⟨hbehind, (hbefore.append tr hcalls).append tr (hafter.append tr hcalls')⟩

/-- **Every function that a call of a text may select** is defined in the text: its definition has
ended before the call, or the call lies in its body. -/
theorem Trace.defined_of_known {b : Block} (tr : Trace E (blockMarks b)) {d : Nat}
    (hd : (blockMarks b)[d]? = some (.act .dispatch)) {k : Known}
    (hk : k ∈ all (tr.stretches d)) : Defined (blockMarks b) d d k := by
  obtain ⟨-, hcalls⟩ := tr.explains_layered (layered_block b) (span_self _) (Nat.le_refl _)
    ⟨by simp, trivial⟩ fun k hmem => by cases hmem
  exact hcalls d (Nat.zero_le d) (List.getElem?_eq_some_iff.1 hd).1 hd k hk

end Definitions

end OnePass.Derivation
