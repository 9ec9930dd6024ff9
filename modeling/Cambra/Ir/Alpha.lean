import Cambra.Ir.Scope

/-!
# Equality up to the names of binders

Two trees are α-equivalent when they agree but for the names their binders carry: an occurrence of
the one and the occurrence of the other that stands in its place are bound by corresponding binders,
or are both free and the same name.  `Alpha` decides it with the list of corresponding binders in
scope, innermost first, under the scoping rule of `Cambra.Ir.Scope`: a binder's type slots stand in
the scope around its node, but for a `For` target's.

A type alias's node binds nothing and has no job once its predicates are resolved, so it stands for
its body on the left-hand side, the tree before the pass that removes it.

What a tree declares is read allocation by allocation (`ownBinders`, `quoted`): a term quoted in
several types is one term, and its binders are the same binders wherever it is quoted.
-/

namespace Cambra.Ir

variable {ι κ : Type}

/-- What a node's form means to a pass that follows binders: a lambda carries its body's type in its
own, an alias stands for its body, and nothing is special about the others. -/
inductive Role where
  | lambda
  | typeAlias
  | plain
deriving DecidableEq

/-- The role of a node's form. -/
def NodeKind.role : NodeKind → Role
  | .lambda => .lambda
  | .letType _ => .typeAlias
  | _ => .plain

/-! ## Corresponding occurrences -/

/-- `n` on the one side and `n'` on the other are bound by the same pair of binders, or are both
free and equal. -/
def Corresponds : List (Name × Name) → Name → Name → Prop
  | [], n, n' => n = n'
  | (a, b) :: Γ, n, n' => n = a ∧ n' = b ∨ n ≠ a ∧ n' ≠ b ∧ Corresponds Γ n n'

/-- Corresponding write targets. -/
def TargetsCorrespond (Γ : List (Name × Name)) : Option Name → Option Name → Prop
  | none, none => True
  | some n, some n' => Corresponds Γ n n'
  | _, _ => False

/-- The binders in scope after a type binder is crossed on both sides.  An unnamed one binds no
name. -/
def crossBoth (Γ : List (Name × Name)) : Option Name → Option Name → List (Name × Name)
  | some a, some b => (a, b) :: Γ
  | _, _ => Γ

mutual

/-- The two terms are the same up to the names of their binders, `Γ` being the corresponding binders
in scope. -/
def Expr.Alpha (Γ : List (Name × Name)) : Expr ι → Expr κ → Prop
  | .var n ty ann, e' =>
    match e' with
    | .var n' ty' ann' => Corresponds Γ n n' ∧ ty.Alpha Γ ty' ∧ ann.Alpha Γ ann'
    | .node .. => False
  | .node k target ty ann slots items, e' =>
    match k.role, items with
    | .typeAlias, .child body _ => body.Alpha Γ e'
    | _, items =>
      match e' with
      | .var .. => False
      | .node k' target' ty' ann' slots' items' =>
        k = k' ∧ TargetsCorrespond Γ target target' ∧ ty.Alpha Γ ty' ∧ ann.Alpha Γ ann' ∧
          slots.Alpha Γ slots' ∧ items.Alpha k.slotsUnderBinders Γ Γ items'

/-- The two lists of items are the same up to the names of their binders.  `around` are the binders
in scope around the node, where a binder's slots stand unless `under` says otherwise. -/
def Items.Alpha (under : Bool) (around Γ : List (Name × Name)) : Items ι → Items κ → Prop
  | .nil, is' =>
    match is' with
    | .nil => True
    | _ => False
  | .child e rest, is' =>
    match is' with
    | .child e' rest' => e.Alpha Γ e' ∧ rest.Alpha under around Γ rest'
    | _ => False
  | .bind n slots rest, is' =>
    match is' with
    | .bind n' slots' rest' =>
      slots.Alpha (if under then Γ else around) slots' ∧
        rest.Alpha under around ((n, n') :: Γ) rest'
    | _ => False
  | .scope inner rest, is' =>
    match is' with
    | .scope inner' rest' => inner.Alpha under around Γ inner' ∧ rest.Alpha under around Γ rest'
    | _ => False

def Ty.Alpha (Γ : List (Name × Name)) : Ty ι → Ty κ → Prop
  | .mk k parts, .mk k' parts' => k = k' ∧ parts.Alpha Γ parts'

def Parts.Alpha (Γ : List (Name × Name)) : Parts ι → Parts κ → Prop
  | .nil, ps' =>
    match ps' with
    | .nil => True
    | _ => False
  | .type t rest, ps' =>
    match ps' with
    | .type t' rest' => t.Alpha Γ t' ∧ rest.Alpha Γ rest'
    | _ => False
  | .cross n rest, ps' =>
    match ps' with
    | .cross n' rest' => n.isSome = n'.isSome ∧ rest.Alpha (crossBoth Γ n n') rest'
    | _ => False
  | .witness w rest, ps' =>
    match ps' with
    | .witness w' rest' => w = w' ∧ rest.Alpha Γ rest'
    | _ => False
  | .quote b _ e rest, ps' =>
    match ps' with
    | .quote b' _ e' rest' => b = b' ∧ e.Alpha Γ e' ∧ rest.Alpha Γ rest'
    | _ => False

def Tys.Alpha (Γ : List (Name × Name)) : Tys ι → Tys κ → Prop
  | .nil, ts' =>
    match ts' with
    | .nil => True
    | _ => False
  | .cons t rest, ts' =>
    match ts' with
    | .cons t' rest' => t.Alpha Γ t' ∧ rest.Alpha Γ rest'
    | _ => False

end

/-! ## Declared binders -/

/-- A spelling from the source, not a name a pass minted. -/
def Name.isRaw : Name → Bool
  | .raw _ => true
  | _ => false

mutual

/-- No binder of the term, in the terms it quotes included, is a spelling from the source. -/
def Expr.Minted : Expr ι → Prop
  | .var _ ty ann => ty.Minted ∧ ann.Minted
  | .node _ _ ty ann slots items => ty.Minted ∧ ann.Minted ∧ slots.Minted ∧ items.Minted

def Items.Minted : Items ι → Prop
  | .nil => True
  | .child e rest => e.Minted ∧ rest.Minted
  | .bind n slots rest => n.isRaw = false ∧ slots.Minted ∧ rest.Minted
  | .scope inner rest => inner.Minted ∧ rest.Minted

def Ty.Minted : Ty ι → Prop
  | .mk _ parts => parts.Minted

def Parts.Minted : Parts ι → Prop
  | .nil => True
  | .type t rest => t.Minted ∧ rest.Minted
  | .cross _ rest => rest.Minted
  | .witness _ rest => rest.Minted
  | .quote _ _ e rest => e.Minted ∧ rest.Minted

def Tys.Minted : Tys ι → Prop
  | .nil => True
  | .cons t rest => t.Minted ∧ rest.Minted

end

mutual

/-- The binders the term declares outside the terms it quotes. -/
def Expr.ownBinders : Expr ι → List Name
  | .var _ _ _ => []
  | .node _ _ _ _ _ items => items.ownBinders

def Items.ownBinders : Items ι → List Name
  | .nil => []
  | .child e rest => e.ownBinders ++ rest.ownBinders
  | .bind n _ rest => n :: rest.ownBinders
  | .scope inner rest => inner.ownBinders ++ rest.ownBinders

end

mutual

/-- The allocations the term quotes, at any depth, each with the binders its term declares. -/
def Expr.quoted : Expr ι → List (ι × List Name)
  | .var _ ty ann => ty.quoted ++ ann.quoted
  | .node _ _ ty ann slots items => ty.quoted ++ ann.quoted ++ slots.quoted ++ items.quoted

def Items.quoted : Items ι → List (ι × List Name)
  | .nil => []
  | .child e rest => e.quoted ++ rest.quoted
  | .bind _ slots rest => slots.quoted ++ rest.quoted
  | .scope inner rest => inner.quoted ++ rest.quoted

def Ty.quoted : Ty ι → List (ι × List Name)
  | .mk _ parts => parts.quoted

def Parts.quoted : Parts ι → List (ι × List Name)
  | .nil => []
  | .type t rest => t.quoted ++ rest.quoted
  | .cross _ rest => rest.quoted
  | .witness _ rest => rest.quoted
  | .quote _ a e rest => (a, e.ownBinders) :: (e.quoted ++ rest.quoted)

def Tys.quoted : Tys ι → List (ι × List Name)
  | .nil => []
  | .cons t rest => t.quoted ++ rest.quoted

end

/-- No two binders of the term share a name, the binders of a shared term being counted once. -/
structure Expr.DistinctBinders (e : Expr ι) : Prop where
  own : e.ownBinders.Nodup
  nodup : ∀ q ∈ e.quoted, q.2.Nodup
  apart : ∀ q ∈ e.quoted, e.ownBinders.Disjoint q.2
  shared : ∀ q ∈ e.quoted, ∀ r ∈ e.quoted, q.1 = r.1 → q.2 = r.2
  disjoint : ∀ q ∈ e.quoted, ∀ r ∈ e.quoted, q.1 ≠ r.1 → q.2.Disjoint r.2

end Cambra.Ir
