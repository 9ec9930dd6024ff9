import Mathlib.Tactic.Common

/-!
# Core terms and types with their binders

The tree every pass between lowering and planning works on.  A term carries types, a type quotes
terms (a refinement's predicate, the sum a witness projection reads, a family's arguments), and both
sorts bind names, so a pass that follows names walks the two together.

A node is kept as its kind, the name it writes to if it is a write, its type slots, and its
**items**: the direct children in the order the source enumerates them, with each binder standing
where its scope opens.  A binder scopes over every item after it up to the end of the enclosing
`scope` block.  That is the whole binding structure of a node:

* `Lambda`: the parameter, the body;
* `Let`, `MutDecl`: the bound term, the binder, the body;
* `LetRec`, `DefGroup`: every binder of the group, every definition, the body;
* `For`: the source, the position, the target, the body;
* `Case`: the scrutinee, then for each branch a block of the pattern's binder, the guard, the body;
* `Comprehension`: for each generator its source, its target and its guards, then the element.

A type is its kind and its **parts** in the same way: a component type, a term binder crossed
(`cross`, named or not), a witness binder, or a quoted term.  A function type is its witnesses'
candidate types with the witnesses, its domain, its binder, its codomain; a dependent tuple
alternates components and binders; a family lists its domains, then its binders, then its body; a
refinement is its base and its predicates.

Quoted terms are shared.  The identity of the shared allocation is kept with every quotation (`ι`),
because the passes memoize on it; two trees are the same value when they agree after `forget`.

Spans, labels' payloads and the data of leaves that no pass here reads are left out or kept as the
text they print as.
-/

namespace Cambra.Ir

/-! ## Names -/

/-- The module or run whose top-level member a name is. -/
inductive Home where
  | import (written : String)
  | run (path : List String)
deriving DecidableEq

mutual

/-- A binder or variable name.  `raw` is a spelling from the source, `unique` a source binder
uniquification minted, `synthetic` a binder a pass introduced, `elem` the element of the refinement
`up` refinements out, and `piBound` a reference to the type binder `index` crossings out.  The
spelling a `piBound` carries for display decides nothing and is left out. -/
inductive Name where
  | raw (spelling : String)
  | unique (base : String) (uid : ℕ) (home : Option Home)
  | synthetic (kind : SyntheticKind) (uid : ℕ)
  | elem (up : ℕ)
  | piBound (index : ℕ)

/-- Which pass introduced a synthetic name. -/
inductive SyntheticKind where
  | pair
  | mono (source : Name)
  | floatedDefer
  | solverArg
  | anfTemp
  | mutRead
  | iterRecord
  | output
  | component

end

deriving instance DecidableEq for Name

/-- A name that a binder may carry: neither an element reference nor a `piBound`, which are
references only. -/
def Name.IsBinder : Name → Prop
  | .elem _ | .piBound _ => False
  | _ => True

/-! ## Kinds of nodes and of types -/

/-- The forms of a term other than a variable. -/
inductive NodeKind where
  | lit (text : String)
  | builtin (name : String)
  | apply
  | cast
  | comprehension
  | binOp (op : String)
  | unaryOp (op : String)
  | lambda
  | aggregate (kind : String)
  | letIn
  | run (name : String)
  | letType (name : String)
  | list
  | case
  | method (name : String)
  | traitFn (function : String)
  | variantCtor (tag : String)
  | nominalCtor (ctor : String)
  | transact (keys : List Name)
  | letRec
  | defGroup
  | forIn
  | mutDecl
  | mutWrite
  | tuple
  | proj (key : String)
  | record (labels : List String)
  | source (name : String)
  | loadFrom (name : String)
  | compose
  | copair
  | disjointJoin
  | realized
  | exprStmt
  | feed
  | define
  | defer
  | abstract
  | begin
  | error
deriving DecidableEq

/-- Whether a function type is a capability or a collection, or which is still to be inferred. -/
inductive FunKind where
  | compute
  | data
  | var (uid : ℕ)
deriving DecidableEq

/-- The forms of a type. -/
inductive TyKind where
  | base (name : String)
  | uintRange (n : ℕ)
  | function (kind : FunKind)
  | tuple
  | openTuple
  | depTuple
  | record (labels : List String)
  | variant (tags : List String) (isOpen : Bool)
  | refinement
  | hole
  | sharedHole (id : ℕ)
  | boundedHole
  | barrierVar (id : ℕ)
  | infer (id : ℕ)
  | dataSource (name : String)
  | chanDom (name : Name)
  | txn
  | history (overwrite : Bool)
  | witnessRef (id : ℕ)
  | witnessProjection (position : ℕ)
  | param (id : ℕ)
  | familyApp (param : ℕ)
  | family
  | poly
  | nominal (decl : String)
  | split
deriving DecidableEq

/-! ## Terms and types -/

mutual

/-- A term: its type, the annotation the program wrote on it (`ann`, none or one), and its node.
A variable is a constructor of its own; any other node has the name it writes to (`Feed`, `Define`,
`MutWrite`), the type slots of its form (a cast's target, an alias's types, a trait function's
operands, a run's type arguments, a transaction's domain and parameter) and its items. -/
inductive Expr (ι : Type) where
  | var (name : Name) (ty : Ty ι) (ann : Tys ι)
  | node (kind : NodeKind) (target : Option Name) (ty : Ty ι) (ann slots : Tys ι) (items : Items ι)

/-- The children and binders of a node, in order.  A binder's slots are its type and annotation. -/
inductive Items (ι : Type) where
  | nil
  | child (e : Expr ι) (rest : Items ι)
  | bind (name : Name) (slots : Tys ι) (rest : Items ι)
  | scope (inner rest : Items ι)

/-- A type: its kind and its parts. -/
inductive Ty (ι : Type) where
  | mk (kind : TyKind) (parts : Parts ι)

/-- The components, binders and quoted terms of a type, in order.  A quotation says whether it binds
an element, as a refinement's predicate does, and which allocation it shares. -/
inductive Parts (ι : Type) where
  | nil
  | type (t : Ty ι) (rest : Parts ι)
  | cross (name : Option Name) (rest : Parts ι)
  | witness (id : ℕ) (rest : Parts ι)
  | quote (bindsElem : Bool) (id : ι) (term : Expr ι) (rest : Parts ι)

/-- A list of types. -/
inductive Tys (ι : Type) where
  | nil
  | cons (t : Ty ι) (rest : Tys ι)

end

variable {ι : Type}

/-- **Induction over trees**: what holds of the trees of each sort where it holds of their parts
holds of them all. -/
lemma trees_induction {P : Expr ι → Prop} {Q : Items ι → Prop} {R : Ty ι → Prop}
    {S : Parts ι → Prop} {U : Tys ι → Prop}
    (var : ∀ n ty ann, R ty → U ann → P (.var n ty ann))
    (node : ∀ k target ty ann slots items, R ty → U ann → U slots → Q items →
      P (.node k target ty ann slots items))
    (noItems : Q .nil) (child : ∀ e rest, P e → Q rest → Q (.child e rest))
    (bind : ∀ n slots rest, U slots → Q rest → Q (.bind n slots rest))
    (scope : ∀ inner rest, Q inner → Q rest → Q (.scope inner rest))
    (mk : ∀ k parts, S parts → R (.mk k parts))
    (noParts : S .nil) (type : ∀ t rest, R t → S rest → S (.type t rest))
    (cross : ∀ n rest, S rest → S (.cross n rest))
    (witness : ∀ w rest, S rest → S (.witness w rest))
    (quote : ∀ b i e rest, P e → S rest → S (.quote b i e rest))
    (noTys : U .nil) (cons : ∀ t rest, R t → U rest → U (.cons t rest)) :
    (∀ e, P e) ∧ (∀ is, Q is) ∧ (∀ t, R t) ∧ (∀ ps, S ps) ∧ ∀ ts, U ts :=
  ⟨Expr.rec var node noItems child bind scope mk noParts type cross witness quote noTys cons,
    Items.rec var node noItems child bind scope mk noParts type cross witness quote noTys cons,
    Ty.rec var node noItems child bind scope mk noParts type cross witness quote noTys cons,
    Parts.rec var node noItems child bind scope mk noParts type cross witness quote noTys cons,
    Tys.rec var node noItems child bind scope mk noParts type cross witness quote noTys cons⟩

/-! ## The value of a tree

Two types that differ in the allocations of their quoted terms are the same type. -/

mutual

/-- The term without the allocations of what it quotes. -/
def Expr.forget : Expr ι → Expr Unit
  | .var n ty ann => .var n ty.forget ann.forget
  | .node k target ty ann slots items =>
    .node k target ty.forget ann.forget slots.forget items.forget

def Items.forget : Items ι → Items Unit
  | .nil => .nil
  | .child e rest => .child e.forget rest.forget
  | .bind n slots rest => .bind n slots.forget rest.forget
  | .scope inner rest => .scope inner.forget rest.forget

def Ty.forget : Ty ι → Ty Unit
  | .mk k parts => .mk k parts.forget

def Parts.forget : Parts ι → Parts Unit
  | .nil => .nil
  | .type t rest => .type t.forget rest.forget
  | .cross n rest => .cross n rest.forget
  | .witness w rest => .witness w rest.forget
  | .quote b _ e rest => .quote b () e.forget rest.forget

def Tys.forget : Tys ι → Tys Unit
  | .nil => .nil
  | .cons t rest => .cons t.forget rest.forget

end

end Cambra.Ir
