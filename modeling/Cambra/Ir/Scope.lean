import Cambra.Ir.Syntax

/-!
# Free occurrences

Which occurrences of a name are free in a term or a type, and the tree with its free occurrences
respelled.

The rule is the one every scoped walk shares.  A child stands under the binders of its node that
precede it.  A binder does not bind in its own type, so a node's type slots, its binders' among
them, stand in the scope around the node; only a `For` target's slots stand under the loop's
position.  In a type, a crossed binder scopes over the parts after it.  A predicate is read where
its type slot stands, with each element reference one refinement further out.

A walk for one name stops below a binder of that name, so it carries whether the name is still the
one it started from (`live`).
-/

namespace Cambra.Ir

variable {ι : Type}

/-- Whether `name` is `target` as written `shift` refinements inside where `target` was asked
about. -/
def Name.isWritten (target : Name) (shift : ℕ) (name : Name) : Bool :=
  match target with
  | .elem up => name == .elem (up + shift)
  | _ => name == target

lemma Name.IsBinder.isWritten {x : Name} (h : x.IsBinder) (shift : ℕ) (n : Name) :
    x.isWritten shift n = (n == x) := by cases x <;> first | rfl | exact h.elim

lemma Name.IsBinder.any_isWritten {x : Name} (h : x.IsBinder) (shift : ℕ) (n : Option Name) :
    (!n.any (x.isWritten shift)) = (n != some x) := by
  cases n with
  | none => rfl
  | some n => rw [Option.any_some, h.isWritten]; rfl

/-- Whether the type slots of a node's binders stand under the binders before them.  Only a `For`
target's do. -/
def NodeKind.slotsUnderBinders : NodeKind → Bool
  | .forIn => true
  | _ => false

/-! ## Reading a name -/

mutual

/-- Whether the term reads `x` free, in its node, its types or below, `x` being written `shift`
refinements inside. -/
def Expr.reads (x : Name) (shift : ℕ) : Expr ι → Bool
  | .var n ty ann => x.isWritten shift n || ty.reads x shift || ann.reads x shift
  | .node k target ty ann slots items =>
    target.any (x.isWritten shift) || ty.reads x shift || ann.reads x shift ||
      slots.reads x shift || items.reads x shift k.slotsUnderBinders true

/-- Whether an item reads `x` free.  `under` says that binders' slots stand under the binders before
them, `live` that no binder passed so far is `x`. -/
def Items.reads (x : Name) (shift : ℕ) (under live : Bool) : Items ι → Bool
  | .nil => false
  | .child e rest => (live && e.reads x shift) || rest.reads x shift under live
  | .bind n slots rest =>
    ((live || !under) && slots.reads x shift) ||
      rest.reads x shift under (live && !x.isWritten shift n)
  | .scope inner rest => inner.reads x shift under live || rest.reads x shift under live

def Ty.reads (x : Name) (shift : ℕ) : Ty ι → Bool
  | .mk _ parts => parts.reads x shift true

/-- Whether a part reads `x` free, `live` saying that no binder crossed so far is `x`. -/
def Parts.reads (x : Name) (shift : ℕ) (live : Bool) : Parts ι → Bool
  | .nil => false
  | .type t rest => (live && t.reads x shift) || rest.reads x shift live
  | .cross n rest => rest.reads x shift (live && !n.any (x.isWritten shift))
  | .witness _ rest => rest.reads x shift live
  | .quote b _ e rest => (live && e.reads x (shift + b.toNat)) || rest.reads x shift live

def Tys.reads (x : Name) (shift : ℕ) : Tys ι → Bool
  | .nil => false
  | .cons t rest => t.reads x shift || rest.reads x shift

end

/-- Whether `name` occurs free in `ty`.  The source counts the occurrences, each shared term once,
and asks whether the count is positive. -/
def isFreeInType (name : Name) (ty : Ty ι) : Bool := ty.reads name 0

/-! ## Respelling a name -/

/-- `n` with the name `x` written `y`, where occurrences of `x` are live. -/
def Name.rename (x y : Name) (live : Bool) (n : Name) : Name :=
  if live && n == x then y else n

mutual

/-- The term with every free occurrence of `x` written `y`, if it stands where `x` is live. -/
def Expr.rename (x y : Name) (live : Bool) : Expr ι → Expr ι
  | .var n ty ann => .var (Name.rename x y live n) (ty.rename x y live) (ann.rename x y live)
  | .node k target ty ann slots items =>
    .node k (target.map (Name.rename x y live)) (ty.rename x y live) (ann.rename x y live)
      (slots.rename x y live) (items.rename x y k.slotsUnderBinders live live)

/-- The items with every free occurrence of `x` written `y`, `x` being live around the node if
`ambient` says so. -/
def Items.rename (x y : Name) (under ambient live : Bool) : Items ι → Items ι
  | .nil => .nil
  | .child e rest => .child (e.rename x y live) (rest.rename x y under ambient live)
  | .bind n slots rest =>
    .bind n (slots.rename x y (if under then live else ambient))
      (rest.rename x y under ambient (live && n != x))
  | .scope inner rest =>
    .scope (inner.rename x y under ambient live) (rest.rename x y under ambient live)

def Ty.rename (x y : Name) (live : Bool) : Ty ι → Ty ι
  | .mk k parts => .mk k (parts.rename x y live)

def Parts.rename (x y : Name) (live : Bool) : Parts ι → Parts ι
  | .nil => .nil
  | .type t rest => .type (t.rename x y live) (rest.rename x y live)
  | .cross n rest => .cross n (rest.rename x y (live && n != some x))
  | .witness w rest => .witness w (rest.rename x y live)
  | .quote b i e rest => .quote b i (e.rename x y live) (rest.rename x y live)

def Tys.rename (x y : Name) (live : Bool) : Tys ι → Tys ι
  | .nil => .nil
  | .cons t rest => .cons (t.rename x y live) (rest.rename x y live)

end

/-! ## Names that do not occur -/

mutual

/-- `y` occurs nowhere in the term, as a reference or as a binder. -/
def Expr.Avoids (y : Name) : Expr ι → Prop
  | .var n ty ann => n ≠ y ∧ ty.Avoids y ∧ ann.Avoids y
  | .node _ target ty ann slots items =>
    target ≠ some y ∧ ty.Avoids y ∧ ann.Avoids y ∧ slots.Avoids y ∧ items.Avoids y

def Items.Avoids (y : Name) : Items ι → Prop
  | .nil => True
  | .child e rest => e.Avoids y ∧ rest.Avoids y
  | .bind n slots rest => n ≠ y ∧ slots.Avoids y ∧ rest.Avoids y
  | .scope inner rest => inner.Avoids y ∧ rest.Avoids y

def Ty.Avoids (y : Name) : Ty ι → Prop
  | .mk _ parts => parts.Avoids y

def Parts.Avoids (y : Name) : Parts ι → Prop
  | .nil => True
  | .type t rest => t.Avoids y ∧ rest.Avoids y
  | .cross n rest => n ≠ some y ∧ rest.Avoids y
  | .witness _ rest => rest.Avoids y
  | .quote _ _ e rest => e.Avoids y ∧ rest.Avoids y

def Tys.Avoids (y : Name) : Tys ι → Prop
  | .nil => True
  | .cons t rest => t.Avoids y ∧ rest.Avoids y

end

end Cambra.Ir
