import Cambra.Ir.Alpha
import Cambra.Ir.PiWalk

/-!
# Uniquification

The pass that mints a name for every binder the program wrote and resolves the references to it.  It
walks the tree with the binders it has minted by spelling, innermost first, and takes a raw
reference to the innermost binder of its spelling.

The walk reaches a node's type and annotation first, then its own slots, then its items in order, a
binder's slots where the binder stands.  So the type of a later member of a recursive group, or of a
later generator, is walked with the binders before it already minted.  A lambda's function type is
walked in halves, the domain around the binder and the codomain under it.  Only a cast's target and
an alias's types are walked among a node's own slots, and only a refinement's predicates among the
terms a type quotes.  An alias gives way to its body.

A predicate is rebuilt once, at the first place the walk reaches it, and every other occurrence is
pointed at that rebuild whatever is in scope there.

The identities of nodes and the checks of debug builds are left out.  A set of refinements is
deduplicated after its predicates are rebuilt; resolution sends distinct spellings to distinct
names, so predicates that were not duplicates do not become so.
-/

namespace Cambra.Ir

/-! ## The environment -/

/-- The minted names by source spelling, the innermost binder first. -/
abbrev UniqueEnv := List (String × Name)

/-- The minted name a raw reference resolves to, if any. -/
def UniqueEnv.resolve (env : UniqueEnv) : Name → Option Name
  | .raw spelling => env.lookup spelling
  | _ => none

/-- A reference as the walk leaves it. -/
def UniqueEnv.rewrite (env : UniqueEnv) (n : Name) : Name := (env.resolve n).getD n

/-- What the walk carries: the next uid, the next free allocation, and the predicates rebuilt. -/
structure Uniquifier where
  uid : ℕ
  next : ℕ
  memo : List (ℕ × Rc)

/-- Mint a name for a binder.  A binder that is minted already is left and binds nothing. -/
def Uniquifier.bindName (s : Uniquifier) (home : Option Home) (env : UniqueEnv) :
    Name → Name × UniqueEnv × Uniquifier
  | .raw base =>
    let fresh := Name.unique base s.uid home
    (fresh, (base, fresh) :: env, { s with uid := s.uid + 1 })
  | n => (n, env, s)

/-- Keep a rebuilt predicate as a new allocation, remembered for its origin. -/
def Uniquifier.install (s : Uniquifier) (origin : ℕ) (e : Expr ℕ) : Rc × Uniquifier :=
  ((s.next, e), { s with next := s.next + 1, memo := (origin, (s.next, e)) :: s.memo })

/-- The forms of a module's spine: their body stands at the top level if they do. -/
def NodeKind.onSpine : NodeKind → Bool
  | .letIn | .mutDecl | .exprStmt | .letType _ | .defGroup => true
  | _ => false

/-- The forms whose own type slots the walk reaches. -/
def NodeKind.walksSlots : NodeKind → Bool
  | .cast | .letType _ => true
  | _ => false

/-- Whether nothing follows. -/
def Items.isNil {ι : Type} : Items ι → Bool
  | .nil => true
  | _ => false

/-! ## The halves of a function type -/

/-- The parts of a function type with its domain and what stands under its binder replaced.  The
domain is the component just before the binder. -/
def Parts.withHalves {ι : Type} (domain : Option (Ty ι)) (codomain : Parts ι) : Parts ι → Parts ι
  | .type t (.cross n _) => .type (domain.getD t) (.cross n codomain)
  | .type t rest => .type t (Parts.withHalves domain codomain rest)
  | .witness w rest => .witness w (Parts.withHalves domain codomain rest)
  | ps => ps

def Ty.withHalves {ι : Type} (domain : Option (Ty ι)) (codomain : Parts ι) : Ty ι → Ty ι
  | .mk (.function k) parts => .mk (.function k) (Parts.withHalves domain codomain parts)
  | t => t

/-! ## The walk -/

section Walk

variable (home : Option Home)

mutual

/-- `Uniquifier::expr`, at a node that stands on the module's spine if `top` says so. -/
def Expr.uniquify (env : UniqueEnv) (top : Bool) : Expr ℕ → Uniquifier → Expr ℕ × Uniquifier
  | .var n ty ann, s =>
    let ty' := ty.uniquify env s
    let ann' := ann.uniquify env ty'.2
    (.var (env.rewrite n) ty'.1 ann'.1, ann'.2)
  | .node k target ty ann slots items, s =>
    match k.role, items with
    | .lambda, .bind n paramSlots body =>
      let ann' := ann.uniquify env s
      let domain := ty.uniquifyDomain env ann'.2
      let paramSlots' := paramSlots.uniquify env domain.2
      let param := paramSlots'.2.bindName none env n
      let codomain := ty.uniquifyCodomain param.2.1 param.2.2
      let body' := body.uniquify param.2.1 false codomain.2
      (.node k (target.map env.rewrite) (ty.withHalves domain.1 codomain.1) ann'.1 slots
        (.bind param.1 paramSlots'.1 body'.1), body'.2)
    | .typeAlias, .child body _ =>
      let ty' := ty.uniquify env s
      let ann' := ann.uniquify env ty'.2
      let slots' := slots.uniquify env ann'.2
      body.uniquify env top slots'.2
    | _, items =>
      let ty' := ty.uniquify env s
      let ann' := ann.uniquify env ty'.2
      let slots' := if k.walksSlots then slots.uniquify env ann'.2 else (slots, ann'.2)
      let items' := items.uniquify env (top && k.onSpine) slots'.2
      (.node k (target.map env.rewrite) ty'.1 ann'.1 slots'.1 items'.1, items'.2)

/-- The arms of `Uniquifier::expr`.  Only the last child of a node on the spine, its body, stands on
the spine. -/
def Items.uniquify (env : UniqueEnv) (top : Bool) : Items ℕ → Uniquifier → Items ℕ × Uniquifier
  | .nil, s => (.nil, s)
  | .child e rest, s =>
    let e' := e.uniquify env (top && rest.isNil) s
    let rest' := rest.uniquify env top e'.2
    (.child e'.1 rest'.1, rest'.2)
  | .bind n slots rest, s =>
    let slots' := slots.uniquify env s
    let bound := slots'.2.bindName (if top then home else none) env n
    let rest' := rest.uniquify bound.2.1 top bound.2.2
    (.bind bound.1 slots'.1 rest'.1, rest'.2)
  | .scope inner rest, s =>
    let inner' := inner.uniquify env top s
    let rest' := rest.uniquify env top inner'.2
    (.scope inner'.1 rest'.1, rest'.2)

/-- `Uniquifier::ty`. -/
def Ty.uniquify (env : UniqueEnv) : Ty ℕ → Uniquifier → Ty ℕ × Uniquifier
  | .mk k parts, s =>
    let parts' := parts.uniquify env (k == .refinement) s
    (.mk k parts'.1, parts'.2)

/-- The parts of a type.  A refinement's predicates are rebuilt before its base is walked, and no
other quoted term is. -/
def Parts.uniquify (env : UniqueEnv) (refined : Bool) : Parts ℕ → Uniquifier → Parts ℕ × Uniquifier
  | .nil, s => (.nil, s)
  | .type t rest, s =>
    if refined then
      let rest' := rest.uniquify env refined s
      let t' := t.uniquify env rest'.2
      (.type t'.1 rest'.1, t'.2)
    else
      let t' := t.uniquify env s
      let rest' := rest.uniquify env refined t'.2
      (.type t'.1 rest'.1, rest'.2)
  | .cross n rest, s =>
    let rest' := rest.uniquify env refined s
    (.cross n rest'.1, rest'.2)
  | .witness w rest, s =>
    let rest' := rest.uniquify env refined s
    (.witness w rest'.1, rest'.2)
  | .quote b a e rest, s =>
    if refined then
      match s.memo.lookup a with
      | some done =>
        let rest' := rest.uniquify env refined s
        (.quote b done.1 done.2 rest'.1, rest'.2)
      | none =>
        let e' := e.uniquify env false s
        let done := e'.2.install a e'.1
        let rest' := rest.uniquify env refined done.2
        (.quote b done.1.1 done.1.2 rest'.1, rest'.2)
    else
      let rest' := rest.uniquify env refined s
      (.quote b a e rest'.1, rest'.2)

/-- The domain of a lambda's type, if that is a function type. -/
def Ty.uniquifyDomain (env : UniqueEnv) : Ty ℕ → Uniquifier → Option (Ty ℕ) × Uniquifier
  | .mk (.function _) parts, s => parts.uniquifyDomain env s
  | .mk _ _, s => (none, s)

def Parts.uniquifyDomain (env : UniqueEnv) : Parts ℕ → Uniquifier → Option (Ty ℕ) × Uniquifier
  | .type t (.cross _ _), s =>
    let t' := t.uniquify env s
    (some t'.1, t'.2)
  | .type _ rest, s => rest.uniquifyDomain env s
  | .witness _ rest, s => rest.uniquifyDomain env s
  | _, s => (none, s)

/-- What stands under the binder of a lambda's type, if that is a function type. -/
def Ty.uniquifyCodomain (env : UniqueEnv) : Ty ℕ → Uniquifier → Parts ℕ × Uniquifier
  | .mk (.function _) parts, s => parts.uniquifyCodomain env s
  | .mk _ _, s => (.nil, s)

def Parts.uniquifyCodomain (env : UniqueEnv) : Parts ℕ → Uniquifier → Parts ℕ × Uniquifier
  | .type _ (.cross _ rest), s => rest.uniquify env false s
  | .type _ rest, s => rest.uniquifyCodomain env s
  | .witness _ rest, s => rest.uniquifyCodomain env s
  | _, s => (.nil, s)

def Tys.uniquify (env : UniqueEnv) : Tys ℕ → Uniquifier → Tys ℕ × Uniquifier
  | .nil, s => (.nil, s)
  | .cons t rest, s =>
    let t' := t.uniquify env s
    let rest' := rest.uniquify env t'.2
    (.cons t'.1 rest'.1, rest'.2)

end

end Walk

/-- `run_in`: uniquify the tree of a module, with `scope` beneath its binders. -/
def runIn (e : Expr ℕ) (scope : UniqueEnv) (home : Option Home) (s : Uniquifier) :
    Expr ℕ × Uniquifier :=
  e.uniquify home scope true { s with memo := [] }

end Cambra.Ir
