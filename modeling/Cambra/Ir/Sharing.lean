import Cambra.Ir.Syntax
import Mathlib.Order.Nat

/-!
# Shared terms

Terms quoted in types are shared: one allocation is quoted at several places, and a pass recognises
it there by its identity.  A world says what each allocation holds.  A tree is held in a world when
every quotation in it is of an allocation of the world and quotes what that allocation holds, so two
quotations of one allocation quote one term.  Every tree the program can build is held in the world
of its allocations, and stays so when more is allocated (`heldIn_mono`).
-/

namespace Cambra.Ir

/-- What the allocations hold, those below `next` being in use. -/
structure World where
  held : ℕ → Expr Unit
  next : ℕ

mutual

/-- Every quotation of the term is of an allocation of the world and quotes what it holds. -/
def Expr.HeldIn (W : World) : Expr ℕ → Prop
  | .var _ ty ann => ty.HeldIn W ∧ ann.HeldIn W
  | .node _ _ ty ann slots items => ty.HeldIn W ∧ ann.HeldIn W ∧ slots.HeldIn W ∧ items.HeldIn W

def Items.HeldIn (W : World) : Items ℕ → Prop
  | .nil => True
  | .child e rest => e.HeldIn W ∧ rest.HeldIn W
  | .bind _ slots rest => slots.HeldIn W ∧ rest.HeldIn W
  | .scope inner rest => inner.HeldIn W ∧ rest.HeldIn W

def Ty.HeldIn (W : World) : Ty ℕ → Prop
  | .mk _ parts => parts.HeldIn W

def Parts.HeldIn (W : World) : Parts ℕ → Prop
  | .nil => True
  | .type t rest => t.HeldIn W ∧ rest.HeldIn W
  | .cross _ rest => rest.HeldIn W
  | .witness _ rest => rest.HeldIn W
  | .quote _ a e rest => a < W.next ∧ e.forget = W.held a ∧ e.HeldIn W ∧ rest.HeldIn W

def Tys.HeldIn (W : World) : Tys ℕ → Prop
  | .nil => True
  | .cons t rest => t.HeldIn W ∧ rest.HeldIn W

end

/-- A later world: the allocations in use hold what they held. -/
structure World.Extends (W W' : World) : Prop where
  le : W.next ≤ W'.next
  held : ∀ a < W.next, W'.held a = W.held a

lemma World.Extends.refl (W : World) : W.Extends W := ⟨le_rfl, fun _ _ => rfl⟩

lemma World.Extends.trans {W₁ W₂ W₃ : World} (h₁ : W₁.Extends W₂) (h₂ : W₂.Extends W₃) :
    W₁.Extends W₃ :=
  ⟨h₁.le.trans h₂.le, fun a ha => (h₂.held a (ha.trans_le h₁.le)).trans (h₁.held a ha)⟩

lemma heldIn_mono {W W' : World} (h : W.Extends W') :
    (∀ e : Expr ℕ, e.HeldIn W → e.HeldIn W') ∧ (∀ is : Items ℕ, is.HeldIn W → is.HeldIn W') ∧
      (∀ t : Ty ℕ, t.HeldIn W → t.HeldIn W') ∧ (∀ p : Parts ℕ, p.HeldIn W → p.HeldIn W') ∧
      ∀ ts : Tys ℕ, ts.HeldIn W → ts.HeldIn W' := by
  apply trees_induction
  case quote =>
    -- the allocation is still in use and still holds the expression
    rintro n a e rest he hrest ⟨ha, hheld, hin, hin'⟩
    exact ⟨ha.trans_le h.le, hheld.trans (h.held a ha).symm, he hin, hrest hin'⟩
  all_goals grind [Expr.HeldIn, Items.HeldIn, Ty.HeldIn, Parts.HeldIn, Tys.HeldIn]

lemma Expr.HeldIn.mono {W W' : World} (h : W.Extends W') {e : Expr ℕ} : e.HeldIn W → e.HeldIn W' :=
  (heldIn_mono h).1 e

end Cambra.Ir
