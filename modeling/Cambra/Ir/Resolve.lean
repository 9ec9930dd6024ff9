import Cambra.Ir.Uniquify

/-!
# Which binder an occurrence belongs to

Two rules give an occurrence its binder: the scoping rule, and what the uniquifying walk has
innermost under the occurrence's spelling when it reaches it.  They differ in three ways.  The walk
reaches the slots of a later binder of a node, and a lambda's codomain, with binders in hand that do
not scope there.  It does not reach every slot.  And it resolves a predicate once, where it first
meets it, for every place the predicate is quoted.

`Good` says of a tree that the two rules agree on every occurrence in it.  Binders are told apart by
their number, in the order in which a walk that went into every quotation would reach them, so the
numbers do not depend on what the walk remembers; `meet` says where each predicate is first met, and
with which binders.  Where the walk does not go, the tree has to be `Inert`: nothing in it is bound
around it, and it declares nothing.
-/

namespace Cambra.Ir

variable {ι : Type}

/-! ## What lowering builds -/

/-- A name that was not minted at `uid` or later. -/
def Name.Old (uid : ℕ) : Name → Prop
  | .unique _ v _ => v < uid
  | _ => True

/-- The items a node's form has: a lambda's start with its parameter, an alias's are its body. -/
def NodeKind.Shaped (k : NodeKind) (items : Items ι) : Prop :=
  match k.role, items with
  | .lambda, .bind _ _ _ => True
  | .lambda, _ => False
  | .typeAlias, .child _ .nil => True
  | .typeAlias, _ => False
  | .plain, _ => True

section Lowered

variable (held : ℕ → Expr ℕ) (uid : ℕ)

mutual

/-- A tree as uniquification gets it: every binder is a spelling from the source, every minted name
in it was minted before `uid`, and a quotation quotes what its allocation holds.  Allocations are
numbered as they are made, so a term quotes allocations made before its own, here below `bound`. -/
def Expr.Lowered (bound : ℕ) : Expr ℕ → Prop
  | .var n ty ann => n.Old uid ∧ ty.Lowered bound ∧ ann.Lowered bound
  | .node k target ty ann slots items =>
    k.Shaped items ∧ (∀ n ∈ target, n.Old uid) ∧ ty.Lowered bound ∧ ann.Lowered bound ∧
      slots.Lowered bound ∧ items.Lowered bound

def Items.Lowered (bound : ℕ) : Items ℕ → Prop
  | .nil => True
  | .child e rest => e.Lowered bound ∧ rest.Lowered bound
  | .bind n slots rest => n.isRaw = true ∧ slots.Lowered bound ∧ rest.Lowered bound
  | .scope inner rest => inner.Lowered bound ∧ rest.Lowered bound

def Ty.Lowered (bound : ℕ) : Ty ℕ → Prop
  | .mk _ parts => parts.Lowered bound

def Parts.Lowered (bound : ℕ) : Parts ℕ → Prop
  | .nil => True
  | .type t rest => t.Lowered bound ∧ rest.Lowered bound
  | .cross n rest => (∀ x ∈ n, x.Old uid) ∧ rest.Lowered bound
  | .witness _ rest => rest.Lowered bound
  | .quote _ a e rest => a < bound ∧ e = held a ∧ e.Lowered a ∧ rest.Lowered bound

def Tys.Lowered (bound : ℕ) : Tys ℕ → Prop
  | .nil => True
  | .cons t rest => t.Lowered bound ∧ rest.Lowered bound

end

end Lowered

/-! ## Binders by number -/

/-- The binders the walk has in hand by spelling, innermost first. -/
abbrev BinderEnv := List (String × ℕ)

/-- The binder the walk takes an occurrence to. -/
def BinderEnv.find (env : BinderEnv) : Name → Option ℕ
  | .raw spelling => env.lookup spelling
  | _ => none

/-- The walk passes a binder. -/
def BinderEnv.push (env : BinderEnv) (n : Name) (i : ℕ) : BinderEnv :=
  match n with
  | .raw spelling => (spelling, i) :: env
  | _ => env

/-- The binders in scope, innermost first.  A type's own binder has no number. -/
abbrev Scope := List (Name × Option ℕ)

/-- The term binder an occurrence belongs to, if one does. -/
def Scope.find (Γ : Scope) (n : Name) : Option ℕ := (Γ.lookup n).join

/-- A type binder is crossed. -/
def Scope.cross (Γ : Scope) : Option Name → Scope
  | some n => (n, none) :: Γ
  | none => Γ

mutual

/-- How many binders a walk of the term passes, going into every predicate it reaches. -/
def Expr.count : Expr ι → ℕ
  | .var _ ty ann => ty.count + ann.count
  | .node k _ ty ann slots items =>
    match k.role, items with
    | .lambda, .bind _ paramSlots body =>
      ann.count + ty.domainCount + paramSlots.count + 1 + ty.codomainCount + body.count
    | .typeAlias, .child body _ => ty.count + ann.count + slots.count + body.count
    | _, items => ty.count + ann.count + (if k.walksSlots then slots.count else 0) + items.count

def Items.count : Items ι → ℕ
  | .nil => 0
  | .child e rest => e.count + rest.count
  | .bind _ slots rest => slots.count + 1 + rest.count
  | .scope inner rest => inner.count + rest.count

def Ty.count : Ty ι → ℕ
  | .mk k parts => parts.count (k == .refinement)

def Parts.count (refined : Bool) : Parts ι → ℕ
  | .nil => 0
  | .type t rest => t.count + rest.count refined
  | .cross _ rest => rest.count refined
  | .witness _ rest => rest.count refined
  | .quote _ _ e rest => (if refined then e.count else 0) + rest.count refined

/-- The binders passed in the domain of a lambda's type. -/
def Ty.domainCount : Ty ι → ℕ
  | .mk (.function _) parts => parts.domainCount
  | .mk _ _ => 0

def Parts.domainCount : Parts ι → ℕ
  | .type t (.cross _ _) => t.count
  | .type _ rest => rest.domainCount
  | .witness _ rest => rest.domainCount
  | _ => 0

/-- The binders passed in the codomain of a lambda's type. -/
def Ty.codomainCount : Ty ι → ℕ
  | .mk (.function _) parts => parts.codomainCount
  | .mk _ _ => 0

def Parts.codomainCount : Parts ι → ℕ
  | .type _ (.cross _ rest) => rest.count false
  | .type _ rest => rest.codomainCount
  | .witness _ rest => rest.codomainCount
  | _ => 0

def Tys.count : Tys ι → ℕ
  | .nil => 0
  | .cons t rest => t.count + rest.count

end

/-! ## Where a predicate is first met -/

/-- The predicates met, each with the binders in hand where it was and the next one's number. -/
abbrev Met := List (ℕ × BinderEnv × ℕ)

mutual

/-- The predicates met by a walk of the term that has `env` in hand and reaches binder `k` next. -/
def Expr.meet (env : BinderEnv) (k : ℕ) : Expr ℕ → Met → Met
  | .var _ ty ann, V => ann.meet env (k + ty.count) (ty.meet env k V)
  | .node kind _ ty ann slots items, V =>
    match kind.role, items with
    | .lambda, .bind n paramSlots body =>
      let domainAt := k + ann.count
      let slotsAt := domainAt + ty.domainCount
      let paramAt := slotsAt + paramSlots.count
      let inner := env.push n paramAt
      let V := paramSlots.meet env slotsAt (ty.meetDomain env domainAt (ann.meet env k V))
      body.meet inner (paramAt + 1 + ty.codomainCount) (ty.meetCodomain inner (paramAt + 1) V)
    | .typeAlias, .child body _ =>
      body.meet env (k + ty.count + ann.count + slots.count)
        (slots.meet env (k + ty.count + ann.count) (ann.meet env (k + ty.count) (ty.meet env k V)))
    | _, items =>
      let V := ann.meet env (k + ty.count) (ty.meet env k V)
      let slotsAt := k + ty.count + ann.count
      items.meet env (slotsAt + if kind.walksSlots then slots.count else 0)
        (if kind.walksSlots then slots.meet env slotsAt V else V)

def Items.meet (env : BinderEnv) (k : ℕ) : Items ℕ → Met → Met
  | .nil, V => V
  | .child e rest, V => rest.meet env (k + e.count) (e.meet env k V)
  | .bind n slots rest, V =>
    rest.meet (env.push n (k + slots.count)) (k + slots.count + 1) (slots.meet env k V)
  | .scope inner rest, V => rest.meet env (k + inner.count) (inner.meet env k V)

def Ty.meet (env : BinderEnv) (k : ℕ) : Ty ℕ → Met → Met
  | .mk kind parts, V => parts.meet env (kind == .refinement) k V

def Parts.meet (env : BinderEnv) (refined : Bool) (k : ℕ) : Parts ℕ → Met → Met
  | .nil, V => V
  | .type t rest, V =>
    if refined then t.meet env (k + rest.count refined) (rest.meet env refined k V)
    else rest.meet env refined (k + t.count) (t.meet env k V)
  | .cross _ rest, V => rest.meet env refined k V
  | .witness _ rest, V => rest.meet env refined k V
  | .quote _ a e rest, V =>
    if refined then
      let V := if (V.lookup a).isSome then V else (a, env, k) :: e.meet env k V
      rest.meet env refined (k + e.count) V
    else rest.meet env refined k V

/-- The predicates met in the domain of a lambda's type. -/
def Ty.meetDomain (env : BinderEnv) (k : ℕ) : Ty ℕ → Met → Met
  | .mk (.function _) parts, V => parts.meetDomain env k V
  | .mk _ _, V => V

def Parts.meetDomain (env : BinderEnv) (k : ℕ) : Parts ℕ → Met → Met
  | .type t (.cross _ _), V => t.meet env k V
  | .type _ rest, V => rest.meetDomain env k V
  | .witness _ rest, V => rest.meetDomain env k V
  | _, V => V

/-- The predicates met in the codomain of a lambda's type. -/
def Ty.meetCodomain (env : BinderEnv) (k : ℕ) : Ty ℕ → Met → Met
  | .mk (.function _) parts, V => parts.meetCodomain env k V
  | .mk _ _, V => V

def Parts.meetCodomain (env : BinderEnv) (k : ℕ) : Parts ℕ → Met → Met
  | .type _ (.cross _ rest), V => rest.meet env false k V
  | .type _ rest, V => rest.meetCodomain env k V
  | .witness _ rest, V => rest.meetCodomain env k V
  | _, V => V

def Tys.meet (env : BinderEnv) (k : ℕ) : Tys ℕ → Met → Met
  | .nil, V => V
  | .cons t rest, V => rest.meet env (k + t.count) (t.meet env k V)

end

/-! ## Where the walk does not go -/

mutual

/-- Nothing in the term belongs to a binder around it, it declares no binder and no alias. -/
def Expr.Inert (Γ : Scope) : Expr ι → Prop
  | .var n ty ann => Γ.find n = none ∧ ty.Inert Γ ∧ ann.Inert Γ
  | .node k target ty ann slots items =>
    k.role ≠ .typeAlias ∧ (∀ n ∈ target, Γ.find n = none) ∧ ty.Inert Γ ∧ ann.Inert Γ ∧
      slots.Inert Γ ∧ items.Inert Γ

def Items.Inert (Γ : Scope) : Items ι → Prop
  | .nil => True
  | .child e rest => e.Inert Γ ∧ rest.Inert Γ
  | .bind _ _ _ => False
  | .scope inner rest => inner.Inert Γ ∧ rest.Inert Γ

def Ty.Inert (Γ : Scope) : Ty ι → Prop
  | .mk _ parts => parts.Inert Γ

def Parts.Inert (Γ : Scope) : Parts ι → Prop
  | .nil => True
  | .type t rest => t.Inert Γ ∧ rest.Inert Γ
  | .cross n rest => rest.Inert (Γ.cross n)
  | .witness _ rest => rest.Inert Γ
  | .quote _ _ e rest => e.Inert Γ ∧ rest.Inert Γ

def Tys.Inert (Γ : Scope) : Tys ι → Prop
  | .nil => True
  | .cons t rest => t.Inert Γ ∧ rest.Inert Γ

end

/-! ## Agreement of the two rules -/

section Good

variable (V : Met)

mutual

/-- Every occurrence of the term belongs to the binder the walk takes it to.  `Γ` is what is in
scope, `env` what the walk has in hand, and `k` the number of the next binder. -/
def Expr.Good (Γ : Scope) (env : BinderEnv) (k : ℕ) : Expr ℕ → Prop
  | .var n ty ann => Γ.find n = env.find n ∧ ty.Good Γ env k ∧ ann.Good Γ env (k + ty.count)
  | .node kind target ty ann slots items =>
    match kind.role, items with
    | .lambda, .bind n paramSlots body =>
      let domainAt := k + ann.count
      let slotsAt := domainAt + ty.domainCount
      let paramAt := slotsAt + paramSlots.count
      let inner := env.push n paramAt
      (∀ n ∈ target, Γ.find n = env.find n) ∧ ann.Good Γ env k ∧
        ty.GoodHalves Γ env domainAt inner (paramAt + 1) ∧ paramSlots.Good Γ env slotsAt ∧
        slots.Inert Γ ∧
        body.Good false Γ ((n, some paramAt) :: Γ) inner (paramAt + 1 + ty.codomainCount)
    | .typeAlias, .child body _ => body.Good Γ env (k + ty.count + ann.count + slots.count)
    | _, items =>
      let slotsAt := k + ty.count + ann.count
      (∀ n ∈ target, Γ.find n = env.find n) ∧ ty.Good Γ env k ∧ ann.Good Γ env (k + ty.count) ∧
        (if kind.walksSlots then slots.Good Γ env slotsAt else slots.Inert Γ) ∧
        items.Good kind.slotsUnderBinders Γ Γ env
          (slotsAt + if kind.walksSlots then slots.count else 0)

/-- Every occurrence of the items belongs to the binder the walk takes it to, `around` being what is
in scope around the node. -/
def Items.Good (under : Bool) (around Γ : Scope) (env : BinderEnv) (k : ℕ) : Items ℕ → Prop
  | .nil => True
  | .child e rest => e.Good Γ env k ∧ rest.Good under around Γ env (k + e.count)
  | .bind n slots rest =>
    slots.Good (if under then Γ else around) env k ∧
      rest.Good under around ((n, some (k + slots.count)) :: Γ) (env.push n (k + slots.count))
        (k + slots.count + 1)
  | .scope inner rest =>
    inner.Good under around Γ env k ∧ rest.Good under around Γ env (k + inner.count)

def Ty.Good (Γ : Scope) (env : BinderEnv) (k : ℕ) : Ty ℕ → Prop
  | .mk kind parts => parts.Good (kind == .refinement) Γ env k

/-- Every occurrence of the parts belongs to the binder the walk takes it to.  A predicate is taken
to what was in hand where it was first met. -/
def Parts.Good (refined : Bool) (Γ : Scope) (env : BinderEnv) (k : ℕ) : Parts ℕ → Prop
  | .nil => True
  | .type t rest =>
    if refined then t.Good Γ env (k + rest.count refined) ∧ rest.Good refined Γ env k
    else t.Good Γ env k ∧ rest.Good refined Γ env (k + t.count)
  | .cross n rest => rest.Good refined (Γ.cross n) env k
  | .witness _ rest => rest.Good refined Γ env k
  | .quote _ a e rest =>
    if refined then
      (∃ met, V.lookup a = some met ∧ e.Good Γ met.1 met.2) ∧ rest.Good refined Γ env (k + e.count)
    else e.Inert Γ ∧ rest.Good refined Γ env k

/-- Every occurrence of a lambda's type belongs to the binder the walk takes it to: the domain with
`env` in hand, the codomain with `inner`, the rest not at all. -/
def Ty.GoodHalves (Γ : Scope) (env : BinderEnv) (k : ℕ) (inner : BinderEnv) (k' : ℕ) : Ty ℕ → Prop
  | .mk (.function _) parts => parts.GoodHalves Γ env k inner k'
  | .mk _ parts => parts.Inert Γ

def Parts.GoodHalves (Γ : Scope) (env : BinderEnv) (k : ℕ) (inner : BinderEnv) (k' : ℕ) :
    Parts ℕ → Prop
  | .type t (.cross n rest) => t.Good Γ env k ∧ rest.Good false (Γ.cross n) inner k'
  | .type t rest => t.Inert Γ ∧ rest.GoodHalves Γ env k inner k'
  | .witness _ rest => rest.GoodHalves Γ env k inner k'
  | ps => ps.Inert Γ

def Tys.Good (Γ : Scope) (env : BinderEnv) (k : ℕ) : Tys ℕ → Prop
  | .nil => True
  | .cons t rest => t.Good Γ env k ∧ rest.Good Γ env (k + t.count)

end

end Good

end Cambra.Ir
