import OnePass.Proofs.Syntax.Meaning

/-!
# What names stand for

Every stretch of a text that names are bound in has a map from names to cells. Where a name is
used as a variable the maps around that place say which cell it stands for; if none does, the
name gets a cell of its own. Nothing else that is done with a name has to do with these maps.

* `Frame.nearest?`, `Frame.own?`, `Frame.global?`: the cell of a name. `Frame.bind`: it gets one.
* `Use`, `Use.resolve`: **what a use of a name comes to.**
* `Frame.behind`: the maps behind an action.
* `InUses`: marks whose names are used as variables, are called, or are defined, one by one.
* `inUses_block`: **the names of a text are used** in one of these ways.
-/

namespace OnePass.Syntax

open Grammar (Action Mark Terminal)

namespace Frame

/-- A stretch of text in which nothing is bound yet. -/
def empty (isLoop : Bool) : Frame := ⟨isLoop, fun _ => none⟩

variable (frames : List Frame) (x : String)

/-- The cell that a name has in the nearest stretch that binds it. -/
def nearest? : Option Nat := frames.findSome? (·.cells x)

/-- The cell that it has in the same body: out through the loops up to the function around them, or
to the whole text, and not beyond. -/
def own? : Option Nat := (Bindings.sameBody frames).findSome? (·.cells x)

/-- The cell that it has in the whole text. -/
def global? : Option Nat := frames.getLast?.bind (·.cells x)

/-- The name stands for a cell in the innermost stretch. -/
def bind (cell : Nat) : List Frame :=
  match frames with
  | [] => []
  | f :: outer => { f with cells := Function.update f.cells x (some cell) } :: outer

end Frame

/-- **What a name is used for** as a variable. -/
inductive Use where
  | parameter
  /-- It is declared global. -/
  | global
  /-- It is assigned to. -/
  | target
  /-- It is read, or an element is assigned of what it stands for. -/
  | value
deriving DecidableEq

namespace Use

/-- The actions behind a name that is used. -/
def actions : Use → List Action
  | parameter => [.param]
  | global => [.global]
  | target => [.pushTarget]
  | value => [.checkDefined, .pushId]

/-- The marks of a name that is used. -/
def marks (u : Use) (x : String) : List Mark := nameMark x :: u.actions.map .act

end Use

/-- **What a use comes to.** -/
structure Resolution where
  /-- The maps behind it. -/
  frames : List Frame
  /-- The cell that is pushed. -/
  cell : Option Nat
  /-- Whether the name gets a new cell. -/
  isNew : Bool
  /-- Whether it stands for nothing where it should. -/
  isUndefined : Bool

/-- The cell that has been found is pushed. If there is none the name gets a new one. -/
def Resolution.orNew (found : Option Nat) (x : String) (new : Nat) (frames : List Frame) :
    Resolution :=
  match found with
  | some cell => ⟨frames, some cell, false, false⟩
  | none => ⟨Frame.bind frames x new, some new, true, false⟩

/-- **The maps around a use say what it comes to.** A new cell is this one. -/
def Use.resolve (u : Use) (x : String) (new : Nat) (frames : List Frame) : Resolution :=
  match u with
  | .parameter => ⟨Frame.bind frames x new, none, true, false⟩
  | .global =>
    match frames.tail, Frame.global? frames x with
    | [], _ => ⟨frames, none, false, false⟩
    | _ :: _, some cell => ⟨Frame.bind frames x cell, none, false, false⟩
    | _ :: _, none => ⟨frames, none, false, true⟩
  | .target => .orNew (Frame.own? frames x) x new frames
  | .value =>
    let found := Frame.nearest? frames x
    { Resolution.orNew found x new frames with isUndefined := found.isNone }

/-- **The maps behind an action.** Functions and loops have maps of their own, that are dropped at
their end; besides, only uses of names change any. -/
def Frame.behind (frames : List Frame) (a : Action) (x : String) (new : Nat) : List Frame :=
  match a with
  | .param => (Use.parameter.resolve x new frames).frames
  | .global => (Use.global.resolve x new frames).frames
  | .pushTarget => (Use.target.resolve x new frames).frames
  | .pushId => (Use.value.resolve x new frames).frames
  | .enterFunction => Frame.empty false :: frames
  | .loopBegin => Frame.empty true :: frames
  | .exitFunction | .loopEnd => frames.tail
  | _ => frames

section Marks

/-- Actions that use a name as a variable. -/
def usesVariable : Action → Bool
  | .param | .global | .pushTarget | .checkDefined | .pushId => true
  | _ => false

/-- **Marks in which names are used:** one by one with all their actions, or else they are called or
defined. -/
inductive InUses : List Mark → Prop
  | nil : InUses []
  | use (u : Use) (x : String) {w : List Mark} (h : InUses w) : InUses (u.marks x ++ w)
  | call (x : String) {w : List Mark} (h : InUses w) :
    InUses (nameMark x :: .act .beginCall :: w)
  | define (x : String) {w : List Mark} (h : InUses w) :
    InUses (nameMark x :: .act .enterFunction :: w)
  | read {t : Terminal} {x : String} {w : List Mark} (ht : t ≠ .identifier) (h : InUses w) :
    InUses (.read t x :: w)
  | act {a : Action} {w : List Mark} (ha : usesVariable a = false) (h : InUses w) :
    InUses (.act a :: w)

theorem InUses.append {u w : List Mark} (hu : InUses u) (hw : InUses w) : InUses (u ++ w) := by
  induction hu with
  | nil => exact hw
  | use v x _ ih =>
    rw [List.append_assoc]
    exact .use v x ih
  | call x _ ih => exact .call x ih
  | define x _ ih => exact .define x ih
  | read ht _ ih => exact .read ht ih
  | act ha _ ih => exact .act ha ih

/-- A terminal that is known by its lexeme is no name. -/
theorem inUses_word {t : Terminal} {w : List Mark} (ht : t.isLiteral = true) (h : InUses w) :
    InUses (word t :: w) :=
  .read (fun hc => by rw [hc] at ht; cases ht) h

mutual

theorem Expr.inUses (e : Expr) : InUses e.marks := by
  cases e with
  | number digits =>
    rw [Expr.marks]
    exact .read nofun (.act rfl .nil)
  | name x =>
    rw [Expr.marks]
    exact .use .value x .nil
  | element x index =>
    rw [Expr.marks]
    exact .use .value x (inUses_word rfl (index.inUses.append (inUses_word rfl (.act rfl .nil))))
  | call f arguments =>
    rw [Expr.marks]
    exact .call f (inUses_word rfl
      ((inUses_row rfl arguments).append (inUses_word rfl (.act rfl .nil))))
  | power base exponent =>
    rw [Expr.marks]
    exact base.inUses.append (inUses_word rfl (exponent.inUses.append (.act rfl .nil)))
  | combine op left right =>
    rw [Expr.marks]
    cases op <;>
      exact left.inUses.append (inUses_word rfl (right.inUses.append (.act rfl .nil)))

theorem inUses_row {a : Action} (ha : usesVariable a = false) (es : List Expr) :
    InUses (rowMarks a es) := by
  cases es with
  | nil =>
    rw [rowMarks]
    exact .nil
  | cons e rest =>
    rw [rowMarks]
    exact e.inUses.append (.act ha (inUses_rest ha rest))

theorem inUses_rest {a : Action} (ha : usesVariable a = false) (es : List Expr) :
    InUses (restMarks a es) := by
  cases es with
  | nil =>
    rw [restMarks]
    exact .nil
  | cons e rest =>
    rw [restMarks]
    exact inUses_word rfl (e.inUses.append (.act ha (inUses_rest ha rest)))

end

theorem Relation.inUses (r : Relation) : InUses r.marks := by
  unfold Relation.marks Relation.terminal Relation.marker
  cases r.equal <;> exact r.left.inUses.append
    (inUses_word rfl (.act rfl (r.right.inUses.append (.act rfl .nil))))

theorem Assigned.inUses (v : Assigned) : InUses v.marks := by
  cases v with
  | value e => exact e.inUses
  | list first rest =>
    exact inUses_word rfl (.act rfl ((inUses_row rfl _).append (inUses_word rfl .nil)))

/-- Every parameter is bound by itself. -/
theorem inUses_params (params : List String) : InUses (paramMarks params) := by
  have hfurther : ∀ rest : List String, InUses (furtherParamMarks rest) := by
    intro rest
    induction rest with
    | nil => exact .nil
    | cons x rest ih => exact inUses_word rfl (.use .parameter x ih)
  cases params with
  | nil => exact .nil
  | cons x rest => exact .use .parameter x (hfurther rest)

mutual

theorem Statement.inUses (s : Statement) : InUses s.marks := by
  cases s with
  | assign x value =>
    rw [Statement.marks]
    exact .use .target x (inUses_word rfl (value.inUses.append (.act rfl .nil)))
  | assignElement x index value =>
    rw [Statement.marks]
    exact .use .value x (inUses_word rfl (index.inUses.append (inUses_word rfl
      (.act rfl (inUses_word rfl (value.inUses.append (.act rfl .nil)))))))
  | call f arguments =>
    rw [Statement.marks]
    exact .call f (inUses_word rfl ((inUses_row rfl arguments).append
      (inUses_word rfl (.act rfl (.act rfl .nil)))))
  | returnValue e =>
    rw [Statement.marks]
    exact inUses_word rfl (e.inUses.append (.act rfl .nil))
  | returnNothing =>
    rw [Statement.marks]
    exact inUses_word rfl (.act rfl .nil)
  | global x =>
    rw [Statement.marks]
    exact inUses_word rfl (.use .global x .nil)
  | print e =>
    rw [Statement.marks]
    exact inUses_word rfl (inUses_word rfl
      (e.inUses.append (inUses_word rfl (.act rfl .nil))))
  | leave exit =>
    rw [Statement.marks]
    cases exit <;> exact inUses_word rfl (.act rfl .nil)
  | define f params body =>
    rw [Statement.marks]
    exact inUses_word rfl (.define f (inUses_word rfl ((inUses_params params).append
      (inUses_word rfl (.act rfl (inUses_word rfl ((inUses_block body).append
        (.act rfl (.act rfl .nil)))))))))
  | ifThen test body =>
    rw [Statement.marks]
    exact inUses_word rfl (test.inUses.append (.act rfl (inUses_word rfl
      ((inUses_block body).append (.act rfl .nil)))))
  | ifElse test body other =>
    rw [Statement.marks]
    exact inUses_word rfl (test.inUses.append (.act rfl (inUses_word rfl
      ((inUses_block body).append (inUses_word rfl (.act rfl (inUses_word rfl
        ((inUses_block other).append (.act rfl .nil)))))))))
  | loop test body =>
    rw [Statement.marks]
    exact inUses_word rfl (.act rfl (inUses_word rfl (test.inUses.append (inUses_word rfl
      (.act rfl ((inUses_block body).append (.act rfl .nil)))))))

/-- **The names of a text are used** one by one. -/
theorem inUses_block (b : List Statement) : InUses (blockMarks b) := by
  cases b with
  | nil =>
    rw [blockMarks]
    exact .nil
  | cons s rest =>
    rw [blockMarks]
    exact s.inUses.append (inUses_word rfl (inUses_block rest))

end

end Marks

end OnePass.Syntax
