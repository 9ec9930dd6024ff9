import Cambra.Ccl.Simplify
import Cambra.Lib.PartialFn

/-!
# The meaning of a point-free term

A value of a function type is a partial function: a collection is defined at its keys, a narrowing
step where its test holds.  `Expr.den ρ e t` is the value of `e` read at the type `t`, `none` where
it has none: a chain is defined where every step is, a zip where all its arms are, and an
application where its function is defined at its argument.

`Typed Γ e t` says that the stamped types fit together, refinements included: a step is typed after
another only where it reads the type, refined or not, that the other gives.  A well-typed term is
read at its own stamp (`Typed.ty_eq`).  What a scalar operation computes (`Scalars`), which keys a
projected witness has and which values a refinement holds of (`Keys`) are left open.  So what is
proved holds in particular where each refinement holds of what its predicate accepts.
-/

namespace Cambra.Ccl

/-! ## Values -/

/-- The values of a base type. -/
abbrev BaseType.Val : BaseType → Type
  | .int => I64
  | .uint => U64
  | .string => String
  | .bool => Bool
  | .unit => Unit

/-- What the types leave open: the keys of each projected witness, and the values of a type that
the predicate of each refinement accepts. -/
structure Keys where
  witness : ℕ → Type
  accepts : ℕ → ∀ A : Type, A → Prop

section Values

variable (W : Keys)

mutual

/-- The values of a type. -/
@[reducible] def Ty.Val : Ty → Type
  | .base b => b.Val
  | .hole => Empty
  | .witnessProjection w => W.witness w
  | .refined t p => {v : t.Val // W.accepts p t.Val v}
  | .option t => Option t.Val
  | .tuple ts => Vals ts
  | .variant tags => Tagged tags
  | .fn a b => a.Val → Option b.Val

/-- One value for each type of a list. -/
@[reducible] def Vals : List Ty → Type
  | [] => Unit
  | t :: ts => t.Val × Vals ts

/-- A payload under one of the tags. -/
@[reducible] def Tagged : List (FieldKey × Ty) → Type
  | [] => Empty
  | p :: ps => Payload p ⊕ Tagged ps

@[reducible] def Payload : FieldKey × Ty → Type
  | (_, t) => t.Val

end

/-- A value with its type. -/
abbrev Dyn := Σ t : Ty, t.Val W

/-- What the scalar operations compute, at the types they are stamped with. -/
abbrev Scalars := ScalarOp → ∀ a b : Ty, a.Val W → Option (b.Val W)

end Values

variable {W : Keys}

/-- A value read at another type: itself where the types are equal. -/
def Ty.read (s t : Ty) (v : s.Val W) : Option (t.Val W) :=
  if h : s = t then some (h ▸ v) else none

@[simp] lemma Ty.read_self (t : Ty) (v : t.Val W) : t.read t v = some v := by simp [Ty.read]

/-- The `i`-th component of a tuple, read at a type. -/
def Vals.nth : (ts : List Ty) → ℕ → (t : Ty) → Vals W ts → Option (t.Val W)
  | [], _, _, _ => none
  | s :: _, 0, t, vs => s.read t vs.1
  | _ :: ts, i + 1, t, vs => Vals.nth ts i t vs.2

/-- A value of a type, or of a refinement of it, as a value of the type. -/
def Ty.forget (s t : Ty) : Option (s.Val W → t.Val W) :=
  if h : s = t then some (h ▸ ·)
  else
    match s with
    | .refined u _ => if h : u = t then some fun v => h ▸ v.1 else none
    | _ => none

lemma Ty.forget_refineWith (t : Ty) (p : Option ℕ) :
    ∃ f, (t.refineWith p).forget (W := W) t = some f := by
  cases p with
  | none => exact ⟨_, dif_pos rfl⟩
  | some p =>
    have hne : Ty.refined t p ≠ t := fun h => by
      have := congrArg sizeOf h
      simp only [Ty.refined.sizeOf_spec] at this
      omega
    exact ⟨_, (dif_neg hne).trans (dif_pos rfl)⟩

/-- The zip of functions of one argument: defined where all of them are. -/
def zipVals (a : Ty) : (bs : List Ty) → Vals W (bs.map (Ty.fn a)) → a.Val W → Option (Vals W bs)
  | [], _, _ => some ()
  | _ :: bs, fs, v => do
    let w ← fs.1 v
    let ws ← zipVals a bs fs.2 v
    some (w, ws)

/-- A nest of collections read at one key for each level. -/
def unnest (v : Ty) : (as : List Ty) → (Ty.nest as v).Val W → Vals W as → Option (v.Val W)
  | [], f, _ => some f
  | _ :: as, f, ks => do unnest v as (← f ks.1) ks.2

/-- The payload of a tagged value, where it carries the tag. -/
def project (tag : FieldKey) (t : Ty) : (tags : List (FieldKey × Ty)) → Tagged W tags →
    Option (t.Val W)
  | [], _ => none
  | (k, s) :: tags, v =>
    match v with
    | .inl payload => if k = tag then s.read t payload else none
    | .inr rest => project tag t tags rest

/-! ## Built-in functions -/

/-- Whether a scalar operation reads one value; the others read a pair. -/
def ScalarOp.isUnary : ScalarOp → Bool
  | .neg => true
  | .notFn => true
  | _ => false

/-- The types a built-in may be stamped with. -/
inductive Builtin.HasTy : Builtin → Ty → Prop
  | id (a) : HasTy .id (.fn a a)
  | curry (a b c) : HasTy .curry (.fn (.fn (.tuple [a, b]) c) (.fn a (.fn b c)))
  | const (a b) : HasTy .const (.fn a (.fn b a))
  | zip (a bs) : HasTy .zip (.fn (.tuple (bs.map (Ty.fn a))) (.fn a (.tuple bs)))
  | apply (b c) : HasTy .apply (.fn (.tuple [b, .fn b c]) c)
  | map (a b c) : HasTy .map (.fn (.fn b c) (.fn (.fn a b) (.fn a c)))
  | mapDomain (a b) : HasTy .mapDomain (.fn (.fn a b) (.fn a a))
  | compose (a b c) : HasTy .compose (.fn (.tuple [.fn a b, .fn b c]) (.fn a c))
  | uncurry (as v) : 2 ≤ as.length →
      HasTy (.uncurry as.length) (.fn (.nest as v) (.fn (.tuple as) v))
  | restrict (d v p) :
      HasTy .restrict (.fn (.fn d (.base .bool)) (.fn (.fn d v) (.fn (.refined d p) v)))
  | iterate (d p) :
      HasTy .iterate (.fn (.fn d (.base .bool)) (.fn (d.refineWith p) (d.refineWith p)))
  | filterValues (v) : HasTy .filterValues (.fn (.fn v (.base .bool)) (.fn v v))
  | variantProject (tag tags t) : (∀ s, (tag, s) ∈ tags → s = t) →
      HasTy (.variantProject tag) (.fn (.variant tags) t)
  | lookupChecked (k v) : HasTy .lookupChecked (.fn (.tuple [.fn k v, k]) (.option v))
  | binary (op a b c) : op.isUnary = false → HasTy (.scalar op) (.fn (.tuple [a, b]) c)
  | unary (op k c) : op.isUnary = true → HasTy (.scalar op) (.fn (.base k) c)

/-- `v` where the test holds at it. -/
def keepIf {A : Type} (p : A → Option Bool) (v : A) : Option A :=
  if p v = some true then some v else none

/-- The function a built-in is, at the type it is stamped with. -/
def Builtin.den (S : Scalars W) : Builtin → (t : Ty) → Option (t.Val W)
  | .id, .fn a b => some (a.read b)
  | .curry, .fn (.fn (.tuple [a, b]) c) (.fn a' (.fn b' c')) =>
    if h : a' = a ∧ b' = b ∧ c' = c then
      some fun f => some fun x => some fun y =>
        (f (h.1 ▸ x, h.2.1 ▸ y, ())).bind (c.read c')
    else none
  | .const, .fn a (.fn _ b) => some fun x => some fun _ => a.read b x
  | .zip, .fn (.tuple fs) (.fn a (.tuple bs)) =>
    if h : fs = bs.map (Ty.fn a) then
      some fun vs => some (zipVals a bs (cast (congrArg (Vals W) h) vs))
    else none
  | .apply, .fn (.tuple [b, .fn b' c]) c' =>
    if h : b = b' then some fun v => (v.2.1 (h ▸ v.1)).bind (c.read c') else none
  | .map, .fn (.fn b c) (.fn (.fn a b') (.fn a' c')) =>
    if h : a' = a ∧ b' = b then
      some fun g => some fun xs => some fun k =>
        ((xs (h.1 ▸ k)).bind fun v => g (h.2 ▸ v)).bind (c.read c')
    else none
  | .mapDomain, .fn (.fn a _) (.fn a' b') =>
    if h : a' = a then
      some fun xs => some fun k => if (xs (h ▸ k)).isSome then a'.read b' k else none
    else none
  | .compose, .fn (.tuple [.fn a b, .fn b' c]) (.fn a' c') =>
    if h : a' = a ∧ b = b' then
      some fun v => some fun x =>
        ((v.1 (h.1 ▸ x)).bind fun y => v.2.1 (h.2 ▸ y)).bind (c.read c')
    else none
  | .uncurry n, .fn f (.fn (.tuple as) v) =>
    if h : f = .nest as v ∧ as.length = n ∧ 2 ≤ n then
      some fun g => some (unnest v as (h.1 ▸ g))
    else none
  | .restrict, .fn (.fn d (.base .bool)) (.fn (.fn d' v) (.fn (.refined d'' _) v')) =>
    if h : d' = d ∧ d'' = d then
      some fun p => some fun xs => some fun k =>
        if p (h.2 ▸ k.1) = some true then (xs (h.1 ▸ h.2 ▸ k.1)).bind (v.read v') else none
    else none
  | .iterate, .fn (.fn d (.base .bool)) (.fn d' d'') => do
    let key ← d'.forget d
    some fun p => some fun k => (keepIf (fun k => p (key k)) k).bind (d'.read d'')
  | .filterValues, .fn (.fn d (.base .bool)) (.fn d' d'') =>
    if h : d' = d then
      some fun p => some fun k => (keepIf p (h ▸ k)).bind (d.read d'')
    else none
  | .variantProject tag, .fn (.variant tags) t => some (project tag t tags)
  | .lookupChecked, .fn (.tuple [.fn k v, k']) (.option v') =>
    if h : k' = k ∧ v = v' then some fun c => some (h.2 ▸ c.1 (h.1 ▸ c.2.1)) else none
  | .scalar op, .fn a b => some (S op a b)
  | _, _ => none

@[simp] lemma Ty.read_eq_some (t : Ty) : (t.read t : t.Val W → Option (t.Val W)) = some := by
  funext v; simp

namespace Builtin

variable (S : Scalars W)

attribute [local simp] den

@[simp] lemma den_id (a : Ty) : den S .id (.fn a a) = some some := by simp

@[simp] lemma den_curry (a b c : Ty) :
    den S .curry (.fn (.fn (.tuple [a, b]) c) (.fn a (.fn b c))) =
      some fun f => some fun x => some fun y => f (x, y, ()) := by simp

@[simp] lemma den_const (a b : Ty) :
    den S .const (.fn a (.fn b a)) = some fun x => some fun _ => some x := by simp

@[simp] lemma den_zip (a : Ty) (bs : List Ty) :
    den S .zip (.fn (.tuple (bs.map (Ty.fn a))) (.fn a (.tuple bs))) =
      some fun fs => some (zipVals a bs fs) := by simp

@[simp] lemma den_apply (b c : Ty) :
    den S .apply (.fn (.tuple [b, .fn b c]) c) = some fun v => v.2.1 v.1 := by simp

@[simp] lemma den_map (a b c : Ty) : den S .map (.fn (.fn b c) (.fn (.fn a b) (.fn a c))) =
      some fun g => some fun xs => some fun k => (xs k).bind g := by simp

@[simp] lemma den_mapDomain (a b : Ty) : den S .mapDomain (.fn (.fn a b) (.fn a a)) =
      some fun xs => some fun k => if (xs k).isSome then some k else none := by simp

@[simp] lemma den_compose (a b c : Ty) :
    den S .compose (.fn (.tuple [.fn a b, .fn b c]) (.fn a c)) =
      some fun v => some fun x => (v.1 x).bind v.2.1 := by simp

@[simp] lemma den_uncurry (as : List Ty) (v : Ty) (h : 2 ≤ as.length) :
    den S (.uncurry as.length) (.fn (.nest as v) (.fn (.tuple as) v)) =
      some fun g => some (unnest v as g) := by simp [h]

lemma den_restrict (d v : Ty) (r : ℕ) :
    den S .restrict (.fn (.fn d (.base .bool)) (.fn (.fn d v) (.fn (.refined d r) v))) =
      some fun p => some fun xs => some fun k =>
        if p k.1 = some true then xs k.1 else none := by simp

lemma den_iterate {d k : Ty} {key : k.Val W → d.Val W} (h : k.forget d = some key) :
    den S .iterate (.fn (.fn d (.base .bool)) (.fn k k)) =
      some fun p => some (keepIf fun k => p (key k)) := by simp [h]

@[simp] lemma den_lookupChecked (k v : Ty) :
    den S .lookupChecked (.fn (.tuple [.fn k v, k]) (.option v)) =
      some fun c => some (c.1 c.2.1) := by simp

end Builtin

/-! ## Terms -/

/-- The values of the names in scope. -/
abbrev Env (W : Keys) := Name → Option (Dyn W)

/-- The types of the names in scope. -/
abbrev Ctx := Name → Option Ty

/-- A name bound anew. -/
def Env.set (ρ : Env W) (x : Name) (v : Dyn W) : Env W := fun y => if y = x then some v else ρ y

def Ctx.set (Γ : Ctx) (x : Name) (t : Ty) : Ctx := fun y => if y = x then some t else Γ y

/-- The names in scope have values of their types. -/
def Env.Fits (ρ : Env W) (Γ : Ctx) : Prop := ∀ x t, Γ x = some t → ∃ v : t.Val W, ρ x = some ⟨t, v⟩

/-- The value of a literal, read at a type. -/
def Lit.den (l : Lit) (t : Ty) : Option (t.Val W) :=
  match l with
  | .int i => (Ty.base .int).read t i
  | .string s => (Ty.base .string).read t s
  | .bool b => (Ty.base .bool).read t b
  | .unit => (Ty.base .unit).read t ()

/-- The projection `.i`, where the type has such a component. -/
def projDen (i : ℕ) : (t : Ty) → Option (t.Val W)
  | .fn (.tuple ts) b => if ts[i]? = some b then some (Vals.nth ts i b) else none
  | _ => none

mutual

/-- The value of a term, read at a type. -/
def Expr.den (S : Scalars W) : Env W → Expr → (t : Ty) → Option (t.Val W)
  | _, .lit l _, t => l.den t
  | ρ, .var x _, t => (ρ x).bind fun v => v.1.read t v.2
  | _, .builtin b _, t => b.den S t
  | _, .proj i _, t => projDen i t
  | ρ, .apply a f _, t => do (← Expr.den S ρ f (.fn a.ty t)) (← Expr.den S ρ a a.ty)
  | ρ, .tuple es _, .tuple ts => denTuple S ρ es ts
  | _, .tuple _ _, _ => none
  | ρ, .compose es _, .fn a c => denChain S ρ es a c
  | _, .compose _ _, _ => none
  | ρ, .letE x b e _, t => do Expr.den S (ρ.set x ⟨b.ty, ← Expr.den S ρ b b.ty⟩) e t

/-- The values of a tuple's elements. -/
def denTuple (S : Scalars W) : Env W → List Expr → (ts : List Ty) → Option (Vals W ts)
  | _, [], [] => some ()
  | ρ, e :: es, t :: ts => do some (← Expr.den S ρ e t, ← denTuple S ρ es ts)
  | _, _, _ => none

/-- The composition of a chain's steps, each read between the type the step before reaches and the
codomain it is stamped with. -/
def denChain (S : Scalars W) : Env W → List Expr → (a c : Ty) → Option (a.Val W → Option (c.Val W))
  | _, [], a, c => if a = c then some (a.read c) else none
  | ρ, e :: es, a, c =>
    match e.ty.codomain with
    | some b => do
      let f ← Expr.den S ρ e (.fn a b)
      let g ← denChain S ρ es b c
      some fun v => (f v).bind g
    | none => none

end

/-! ## Typing -/

namespace Ty

mutual

/-- No part of the type is a hole. -/
def resolved : Ty → Bool
  | .base _ => true
  | .hole => false
  | .witnessProjection _ => true
  | .refined t _ => t.resolved
  | .option t => t.resolved
  | .tuple ts => allResolved ts
  | .variant tags => tagsResolved tags
  | .fn a b => a.resolved && b.resolved

def allResolved : List Ty → Bool
  | [] => true
  | t :: ts => t.resolved && allResolved ts

def tagsResolved : List (FieldKey × Ty) → Bool
  | [] => true
  | (_, t) :: tags => t.resolved && tagsResolved tags

end

lemma allResolved_iff {ts : List Ty} : allResolved ts = true ↔ ∀ t ∈ ts, t.resolved = true := by
  induction ts with
  | nil => simp [allResolved]
  | cons t ts ih => simp [allResolved, ih]

lemma resolved_fn {a b : Ty} :
    (fn a b).resolved = true ↔ a.resolved = true ∧ b.resolved = true := by simp [resolved]

lemma computeFunOrHole_eq {a b : Ty} (ha : a.resolved = true) (hb : b.resolved = true) :
    computeFunOrHole a b = .fn a b := by
  cases a with
  | hole => cases ha
  | _ =>
    cases b with
    | hole => cases hb
    | _ => rfl

end Ty

mutual

/-- The stamped types of a term fit together, and the term has type `t`. -/
inductive Typed : Ctx → Expr → Ty → Prop
  | lit {Γ} (l) : Typed Γ (.lit l (.base l.base)) (.base l.base)
  | var {Γ x t} : Γ x = some t → t.resolved = true → Typed Γ (.var x t) t
  | builtin {Γ b t} : b.HasTy t → t.resolved = true → Typed Γ (.builtin b t) t
  | proj {Γ i ts b} : ts[i]? = some b → (Ty.tuple ts).resolved = true →
      Typed Γ (.proj i (.fn (.tuple ts) b)) (.fn (.tuple ts) b)
  | apply {Γ a f s t} : Typed Γ a s → Typed Γ f (.fn s t) → Typed Γ (.apply a f t) t
  | tuple {Γ es ts} : TypedTuple Γ es ts → Typed Γ (.tuple es (.tuple ts)) (.tuple ts)
  | compose {Γ es a c} : 2 ≤ es.length → TypedChain Γ es a c →
      Typed Γ (.compose es (.fn a c)) (.fn a c)
  | letE {Γ x b e s t} : Typed Γ b s → Typed (Γ.set x s) e t → Typed Γ (.letE x b e t) t

inductive TypedTuple : Ctx → List Expr → List Ty → Prop
  | nil {Γ} : TypedTuple Γ [] []
  | cons {Γ e es t ts} : Typed Γ e t → TypedTuple Γ es ts → TypedTuple Γ (e :: es) (t :: ts)

inductive TypedChain : Ctx → List Expr → Ty → Ty → Prop
  | nil {Γ a} : TypedChain Γ [] a a
  | cons {Γ e es a b c} : Typed Γ e (.fn a b) → TypedChain Γ es b c → TypedChain Γ (e :: es) a c

end

lemma Typed.ty_eq {Γ : Ctx} {e : Expr} {t : Ty} (h : Typed Γ e t) : e.ty = t := by cases h <;> rfl

mutual

lemma Typed.resolved {Γ : Ctx} {e : Expr} {t : Ty} : Typed Γ e t → t.resolved = true
  | .lit _ => rfl
  | .var _ h | .builtin _ h => h
  | .proj hi h => by
    rw [Ty.resolved_fn]
    exact ⟨h, Ty.allResolved_iff.mp h _ (List.mem_of_getElem? hi)⟩
  | .apply _ h => (Ty.resolved_fn.mp h.resolved).2
  | .tuple h => h.resolved
  | .compose hlen h => Ty.resolved_fn.mpr (h.resolved (by rintro rfl; simp at hlen))
  | .letE _ h => h.resolved

lemma TypedTuple.resolved {Γ : Ctx} {es : List Expr} {ts : List Ty} :
    TypedTuple Γ es ts → Ty.allResolved ts = true
  | .nil => rfl
  | .cons h hs => by simp [Ty.allResolved, h.resolved, hs.resolved]

lemma TypedChain.resolved {Γ : Ctx} {es : List Expr} {a c : Ty} :
    TypedChain Γ es a c → es ≠ [] → a.resolved = true ∧ c.resolved = true
  | .nil, h => absurd rfl h
  | .cons h .nil, _ => Ty.resolved_fn.mp h.resolved
  | .cons h (.cons h' hs), _ =>
    ⟨(Ty.resolved_fn.mp h.resolved).1, ((TypedChain.cons h' hs).resolved (by simp)).2⟩

end

end Cambra.Ccl
