import Cambra.Ir.Scope

/-!
# Converting references to type binders

A reference to an enclosing function's binder is stored in one of two forms: a name, or an index
that counts the type binders crossed between the reference and the function.  One walk converts
between the two, through the types, the terms they quote, and the types those carry.

Types are compared with the type slots of the terms they quote skipped, and so they are here:
`compared` is what is left of a tree, and two types that agree in it are equal.  The source's
equality identifies more, since it compares normal forms, the binders inside a quoted term by
position, and of a cast's target the refinements of the domain alone.

The walk is modelled twice.  `conv` says what the conversion does to a tree of which only what is
compared is left.  `walk` is the source's `PiWalk`: it converts a shared term once per pass and
re-points the other occurrences at that conversion, keyed by the allocation, the depth, the
refinements entered and the part of the shadow that can matter; it counts its rewrites to decide
whether a term was touched, in which case the conversion is a new allocation and otherwise the
original is kept; it shifts the element references in the type of a reference it reopens; and under
a pass that set one up it consults a memo that outlives the walk.  `Ty.walk_spec` shows that none of
this can be told by comparing: what the walk returns compares as the conversion.  It says no more of
the types inside quoted terms.  The memo of a pass is not keyed by the refinements entered, so the
shift there may be that of another occurrence.

Two things are left out.  Opening at a term instead of a name, and lowering indices past binders
that are gone (`PiMode::Lower`), are other conversions.  A set of refinements is deduplicated again
after it is rewritten; a conversion that is undone by another merges nothing, and where it is not
undone the set has changed already.  The walk visits a binder's type slots where the binder stands
instead of before the node's children, and shifts the type of a reopened reference after it has
converted it instead of before.  Both change only the order in which conversions are remembered and
terms allocated.
-/

namespace Cambra.Ir

variable {ι : Type}

/-! ## What is compared -/

/-- The type that stands for a slot that is not compared. -/
abbrev Ty.blank : Ty ι := .mk .hole .nil

mutual

/-- What is compared of a term: its nodes and names, and a cast's target. -/
def Expr.compared : Expr ι → Expr Unit
  | .var n _ _ => .var n .blank .nil
  | .node k target _ _ slots items =>
    .node k target .blank .nil (if k = .cast then slots.compared else .nil) items.compared

def Items.compared : Items ι → Items Unit
  | .nil => .nil
  | .child e rest => .child e.compared rest.compared
  | .bind n _ rest => .bind n .nil rest.compared
  | .scope inner rest => .scope inner.compared rest.compared

/-- What is compared of a type. -/
def Ty.compared : Ty ι → Ty Unit
  | .mk k parts => .mk k parts.compared

def Parts.compared : Parts ι → Parts Unit
  | .nil => .nil
  | .type t rest => .type t.compared rest.compared
  | .cross n rest => .cross n rest.compared
  | .witness w rest => .witness w rest.compared
  | .quote b _ e rest => .quote b () e.compared rest.compared

def Tys.compared : Tys ι → Tys Unit
  | .nil => .nil
  | .cons t rest => .cons t.compared rest.compared

end

lemma compared_forget : (∀ e : Expr ι, e.forget.compared = e.compared) ∧
    (∀ is : Items ι, is.forget.compared = is.compared) ∧
    (∀ t : Ty ι, t.forget.compared = t.compared) ∧
    (∀ ps : Parts ι, ps.forget.compared = ps.compared) ∧
    ∀ ts : Tys ι, ts.forget.compared = ts.compared := by
  apply trees_induction <;> intros <;>
    simp_all [Expr.forget, Items.forget, Ty.forget, Parts.forget, Tys.forget, Expr.compared,
      Items.compared, Ty.compared, Parts.compared, Tys.compared]

lemma Expr.compared_forget (e : Expr ι) : e.forget.compared = e.compared := Ir.compared_forget.1 e

lemma Ty.compared_forget (t : Ty ι) : t.forget.compared = t.compared := Ir.compared_forget.2.2.1 t

/-! ## The two conversions -/

/-- Which conversion a walk performs: a reference by name to one of the `enclosing` binders
(innermost last, unnamed ones `none`) becomes an index, or a reference by index to the binder just
outside becomes `name`. -/
inductive PiMode where
  | close (enclosing : List (Option Name))
  | openAt (name : Name)
deriving DecidableEq

/-- What a conversion makes of a reference. -/
inductive Turned where
  | kept
  | closed (index : ℕ)
  | opened (name : Name)

/-- What becomes of a reference to `n` under `depth` crossings, `shadowed` being the names bound
between it and the start of the walk. -/
def PiMode.turn (m : PiMode) (shadowed : List Name) (depth : ℕ) (n : Name) : Turned :=
  match m with
  | .close enclosing =>
    if n ∈ shadowed then .kept
    else match enclosing.reverse.idxOf? (some n) with
      | some dist => .closed (dist + depth)
      | none => .kept
  | .openAt name => if n = .piBound depth then .opened name else .kept

mutual

/-- The term with its references converted.  A reopened reference is built anew from its name and
its type, without the annotation.  Where only what is compared is left, its type has no element
reference to shift. -/
def Expr.conv (m : PiMode) (shadowed : List Name) (depth : ℕ) : Expr ι → Expr ι
  | .var n ty ann =>
    match m.turn shadowed depth n with
    | .kept => .var n (ty.conv m shadowed depth) (ann.conv m shadowed depth)
    | .closed i => .var (.piBound i) (ty.conv m shadowed depth) (ann.conv m shadowed depth)
    | .opened y => .var y (ty.conv m shadowed depth) .nil
  | .node k target ty ann slots items =>
    .node k target (ty.conv m shadowed depth) (ann.conv m shadowed depth)
      (slots.conv m shadowed depth) (items.conv m shadowed shadowed depth)

/-- The items with their references converted, `ambient` being what the node itself stands under.  A
binder's slots are converted under `ambient`, whichever binders precede it. -/
def Items.conv (m : PiMode) (ambient shadowed : List Name) (depth : ℕ) : Items ι → Items ι
  | .nil => .nil
  | .child e rest => .child (e.conv m shadowed depth) (rest.conv m ambient shadowed depth)
  | .bind n slots rest =>
    .bind n (slots.conv m ambient depth) (rest.conv m ambient (shadowed ++ [n]) depth)
  | .scope inner rest =>
    .scope (inner.conv m ambient shadowed depth) (rest.conv m ambient shadowed depth)

def Ty.conv (m : PiMode) (shadowed : List Name) (depth : ℕ) : Ty ι → Ty ι
  | .mk k parts => .mk k (parts.conv m shadowed depth)

/-- The parts with their references converted.  A crossed binder shadows its own name and counts one
crossing, named or not. -/
def Parts.conv (m : PiMode) (shadowed : List Name) (depth : ℕ) : Parts ι → Parts ι
  | .nil => .nil
  | .type t rest => .type (t.conv m shadowed depth) (rest.conv m shadowed depth)
  | .cross n rest => .cross n (rest.conv m (shadowed ++ n.toList) (depth + 1))
  | .witness w rest => .witness w (rest.conv m shadowed depth)
  | .quote b i e rest => .quote b i (e.conv m shadowed depth) (rest.conv m shadowed depth)

def Tys.conv (m : PiMode) (shadowed : List Name) (depth : ℕ) : Tys ι → Tys ι
  | .nil => .nil
  | .cons t rest => .cons (t.conv m shadowed depth) (rest.conv m shadowed depth)

end

/-! ## The walk -/

/-- A shared allocation and the term it holds. -/
abbrev Rc := ℕ × Expr ℕ

/-- What a walk remembers a conversion by: the allocation, the depth, the refinements entered and
the relevant shadow. -/
abbrev PassKey := ℕ × ℕ × ℕ × List Name

/-- What the memo of a whole pass remembers a conversion by: the allocation, the conversion, the
depth and the relevant shadow. -/
abbrev ConversionKey := ℕ × PiMode × ℕ × List Name

/-- The state of a walk: the rewrites performed, the terms already converted, the memo of the pass
around it if one stands, and the next free allocation. -/
structure PiWalk where
  changed : ℕ
  memo : List (PassKey × Rc)
  conversions : Option (List (ConversionKey × Rc))
  next : ℕ

/-- The part of the shadow that can change what a term converts to: names of the binders being
closed.  No name shadows an index. -/
def PiMode.shadowKey (m : PiMode) (shadowed : List Name) : List Name :=
  match m with
  | .close enclosing => shadowed.filter fun n => some n ∈ enclosing
  | .openAt _ => []

/-- One rewrite more. -/
def PiWalk.mark (s : PiWalk) : PiWalk := { s with changed := s.changed + 1 }

/-- The conversion the pass's memo holds is taken over into the walk's. -/
def PiWalk.fetch (s : PiWalk) (m : PiMode) (key : PassKey) : PiWalk :=
  match s.conversions.bind (List.lookup (key.1, m, key.2.1, key.2.2.2)) with
  | some done => { s with memo := (key, done) :: s.memo }
  | none => s

/-- A conversion is remembered by the walk and, where one stands, by the pass. -/
def PiWalk.remember (s : PiWalk) (m : PiMode) (key : PassKey) (done : Rc) : PiWalk := { s with
    memo := (key, done) :: s.memo
    conversions := s.conversions.map (((key.1, m, key.2.1, key.2.2.2), done) :: ·) }

/-- A term is moved into a new allocation. -/
def PiWalk.alloc (s : PiWalk) (e : Expr ℕ) : Rc × PiWalk :=
  ((s.next, e), { s with next := s.next + 1 })

/-- What a walked term is kept as: a new allocation if the walk rewrote something in it since it
was in state `s`, and otherwise the allocation `origin` itself. -/
def PiWalk.settle (s : PiWalk) (origin : Rc) (walked : Expr ℕ × PiWalk) : Rc × PiWalk :=
  if s.changed < walked.2.changed then walked.2.alloc walked.1 else (origin, walked.2)

/-- An element reference that reads past the `inside` refinements entered reads `k` refinements
further out. -/
def Name.shiftElem (k inside : ℕ) : Name → Name
  | .elem up => .elem (if inside ≤ up then up + k else up)
  | n => n

mutual

/-- The term placed under `k` more refinements (`shift_elems`): every element reference it reads
free is `k` refinements further out.  Every quotation is allocated anew; the source keeps those the
shift does not change. -/
def Expr.shiftElems (k inside : ℕ) : Expr ℕ → PiWalk → Expr ℕ × PiWalk
  | .var n ty ann, s =>
    let ty' := ty.shiftElems k inside s
    let ann' := ann.shiftElems k inside ty'.2
    (.var (n.shiftElem k inside) ty'.1 ann'.1, ann'.2)
  | .node kind target ty ann slots items, s =>
    let ty' := ty.shiftElems k inside s
    let ann' := ann.shiftElems k inside ty'.2
    let slots' := slots.shiftElems k inside ann'.2
    let items' := items.shiftElems k inside slots'.2
    (.node kind target ty'.1 ann'.1 slots'.1 items'.1, items'.2)

def Items.shiftElems (k inside : ℕ) : Items ℕ → PiWalk → Items ℕ × PiWalk
  | .nil, s => (.nil, s)
  | .child e rest, s =>
    let e' := e.shiftElems k inside s
    let rest' := rest.shiftElems k inside e'.2
    (.child e'.1 rest'.1, rest'.2)
  | .bind n slots rest, s =>
    let slots' := slots.shiftElems k inside s
    let rest' := rest.shiftElems k inside slots'.2
    (.bind n slots'.1 rest'.1, rest'.2)
  | .scope inner rest, s =>
    let inner' := inner.shiftElems k inside s
    let rest' := rest.shiftElems k inside inner'.2
    (.scope inner'.1 rest'.1, rest'.2)

def Ty.shiftElems (k inside : ℕ) : Ty ℕ → PiWalk → Ty ℕ × PiWalk
  | .mk kind parts, s =>
    let parts' := parts.shiftElems k inside s
    (.mk kind parts'.1, parts'.2)

def Parts.shiftElems (k inside : ℕ) : Parts ℕ → PiWalk → Parts ℕ × PiWalk
  | .nil, s => (.nil, s)
  | .type t rest, s =>
    let t' := t.shiftElems k inside s
    let rest' := rest.shiftElems k inside t'.2
    (.type t'.1 rest'.1, rest'.2)
  | .cross n rest, s =>
    let rest' := rest.shiftElems k inside s
    (.cross n rest'.1, rest'.2)
  | .witness w rest, s =>
    let rest' := rest.shiftElems k inside s
    (.witness w rest'.1, rest'.2)
  | .quote b _ e rest, s =>
    let e' := e.shiftElems k (inside + b.toNat) s
    let done := e'.2.alloc e'.1
    let rest' := rest.shiftElems k inside done.2
    (.quote b done.1.1 done.1.2 rest'.1, rest'.2)

def Tys.shiftElems (k inside : ℕ) : Tys ℕ → PiWalk → Tys ℕ × PiWalk
  | .nil, s => (.nil, s)
  | .cons t rest, s =>
    let t' := t.shiftElems k inside s
    let rest' := rest.shiftElems k inside t'.2
    (.cons t'.1 rest'.1, rest'.2)

end

mutual

/-- `PiWalk::expr`. -/
def Expr.walk (m : PiMode) (shadowed : List Name) (elems depth : ℕ) :
    Expr ℕ → PiWalk → Expr ℕ × PiWalk
  | .var n ty ann, s =>
    match m.turn shadowed depth n with
    | .kept =>
      let ty' := ty.walk m shadowed elems depth s
      let ann' := ann.walk m shadowed elems depth ty'.2
      (.var n ty'.1 ann'.1, ann'.2)
    | .closed i =>
      let ty' := ty.walk m shadowed elems depth s.mark
      let ann' := ann.walk m shadowed elems depth ty'.2
      (.var (.piBound i) ty'.1 ann'.1, ann'.2)
    | .opened y =>
      let ty' := ty.walk m shadowed elems depth s.mark
      let shifted := if 0 < elems then ty'.1.shiftElems elems 0 ty'.2 else ty'
      (.var y shifted.1 .nil, shifted.2)
  | .node k target ty ann slots items, s =>
    let ty' := ty.walk m shadowed elems depth s
    let ann' := ann.walk m shadowed elems depth ty'.2
    let slots' := slots.walk m shadowed elems depth ann'.2
    let items' := items.walk m shadowed shadowed elems depth slots'.2
    (.node k target ty'.1 ann'.1 slots'.1 items'.1, items'.2)

def Items.walk (m : PiMode) (ambient shadowed : List Name) (elems depth : ℕ) :
    Items ℕ → PiWalk → Items ℕ × PiWalk
  | .nil, s => (.nil, s)
  | .child e rest, s =>
    let e' := e.walk m shadowed elems depth s
    let rest' := rest.walk m ambient shadowed elems depth e'.2
    (.child e'.1 rest'.1, rest'.2)
  | .bind n slots rest, s =>
    let slots' := slots.walk m ambient elems depth s
    let rest' := rest.walk m ambient (shadowed ++ [n]) elems depth slots'.2
    (.bind n slots'.1 rest'.1, rest'.2)
  | .scope inner rest, s =>
    let inner' := inner.walk m ambient shadowed elems depth s
    let rest' := rest.walk m ambient shadowed elems depth inner'.2
    (.scope inner'.1 rest'.1, rest'.2)

/-- `PiWalk::ty`. -/
def Ty.walk (m : PiMode) (shadowed : List Name) (elems depth : ℕ) : Ty ℕ → PiWalk → Ty ℕ × PiWalk
  | .mk k parts, s =>
    let parts' := parts.walk m shadowed elems depth s
    (.mk k parts'.1, parts'.2)

/-- The arms of `PiWalk::ty` and, at a quotation, `PiWalk::quoted`: a term converted before is
re-pointed at its conversion, which counts as a rewrite unless the conversion kept the
allocation. -/
def Parts.walk (m : PiMode) (shadowed : List Name) (elems depth : ℕ) :
    Parts ℕ → PiWalk → Parts ℕ × PiWalk
  | .nil, s => (.nil, s)
  | .type t rest, s =>
    let t' := t.walk m shadowed elems depth s
    let rest' := rest.walk m shadowed elems depth t'.2
    (.type t'.1 rest'.1, rest'.2)
  | .cross n rest, s =>
    let rest' := rest.walk m (shadowed ++ n.toList) elems (depth + 1) s
    (.cross n rest'.1, rest'.2)
  | .witness w rest, s =>
    let rest' := rest.walk m shadowed elems depth s
    (.witness w rest'.1, rest'.2)
  | .quote b a e rest, s =>
    let inside := elems + b.toNat
    let key := (a, depth, inside, m.shadowKey shadowed)
    let s := s.fetch m key
    match s.memo.lookup key with
    | some done =>
      if done.1 = a then
        let rest' := rest.walk m shadowed elems depth s
        (.quote b a e rest'.1, rest'.2)
      else
        let rest' := rest.walk m shadowed elems depth s.mark
        (.quote b done.1 done.2 rest'.1, rest'.2)
    | none =>
      let done := s.settle (a, e) (e.walk m shadowed inside depth s)
      let rest' := rest.walk m shadowed elems depth (done.2.remember m key done.1)
      (.quote b done.1.1 done.1.2 rest'.1, rest'.2)

def Tys.walk (m : PiMode) (shadowed : List Name) (elems depth : ℕ) : Tys ℕ → PiWalk → Tys ℕ × PiWalk
  | .nil, s => (.nil, s)
  | .cons t rest, s =>
    let t' := t.walk m shadowed elems depth s
    let rest' := rest.walk m shadowed elems depth t'.2
    (.cons t'.1 rest'.1, rest'.2)

end

end Cambra.Ir
