import Cambra.Tiling.Value

/-!
# Point-free terms

The terms the simplifier rewrites: chains `f ≫ g`, applications `x ▷ f` of the combinators lambda
elimination introduces, tuples, projections, literals, variables and `let`.  As in the source every
node carries the type inference or the last pass stamped on it (`Expr.ty`).

A type is kept down to the keys and values it describes.  A refinement `{d : D | p(d)}` narrows the
keys of a function type whose domain it is: `restrict` and `iterate` leave one behind, and
`constReduce` stamps it on the constant it keeps.  The refinement is kept under a name for its
predicate.  A projected witness, whose keys only a collection holds, is kept, since
`keysOnlyInTheData` asks for it.  A function type's kind (data or compute) and binder name decide
nothing about the keys; what a rule reads of them is noted at the rule.
-/

namespace Cambra.Ccl

/-! ## Names and literals -/

/-- A name: its spelling, the number that makes it unique, and whether A-normalization minted it
for a hoisted subexpression. -/
structure Name where
  spelling : String
  uid : ℕ
  isAnfTemp : Bool
deriving DecidableEq, Repr

/-- The primitive base types. -/
inductive BaseType where
  | int
  | uint
  | string
  | bool
  | unit
deriving DecidableEq, Repr

/-- A literal constant. -/
inductive Lit where
  | int (i : I64)
  | string (s : String)
  | bool (b : Bool)
  | unit
deriving DecidableEq

/-- The base type of a literal. -/
def Lit.base : Lit → BaseType
  | .int _ => .int
  | .string _ => .string
  | .bool _ => .bool
  | .unit => .unit

/-! ## Types -/

/-- A type.  `hole` is the placeholder a rule stamps where an operand is not a function. -/
inductive Ty where
  | base (b : BaseType)
  | hole
  | witnessProjection (w : ℕ)
  | refined (base : Ty) (predicate : ℕ)
  | option (payload : Ty)
  | tuple (ts : List Ty)
  | variant (tags : List (FieldKey × Ty))
  | fn (domain codomain : Ty)

mutual

/-- Structural equality of types. -/
def Ty.beq : Ty → Ty → Bool
  | .base b, .base c => b == c
  | .hole, .hole => true
  | .witnessProjection v, .witnessProjection w => v == w
  | .refined s p, .refined t q => s.beq t && p == q
  | .option s, .option t => s.beq t
  | .tuple ss, .tuple ts => beqTys ss ts
  | .variant ss, .variant ts => beqTags ss ts
  | .fn a b, .fn c d => a.beq c && b.beq d
  | _, _ => false

def beqTys : List Ty → List Ty → Bool
  | [], [] => true
  | s :: ss, t :: ts => s.beq t && beqTys ss ts
  | _, _ => false

def beqTags : List (FieldKey × Ty) → List (FieldKey × Ty) → Bool
  | [], [] => true
  | (l, s) :: ss, (k, t) :: ts => l == k && (s.beq t && beqTags ss ts)
  | _, _ => false

end

mutual

lemma Ty.beq_iff : ∀ s t : Ty, s.beq t = true ↔ s = t
  | .base _, t | .hole, t | .witnessProjection _, t => by cases t <;> simp [Ty.beq]
  | .refined s _, t | .option s, t => by cases t <;> simp [Ty.beq, Ty.beq_iff s]
  | .tuple ss, t => by cases t <;> simp [Ty.beq, beqTys_iff ss]
  | .variant ss, t => by cases t <;> simp [Ty.beq, beqTags_iff ss]
  | .fn a b, t => by cases t <;> simp [Ty.beq, Ty.beq_iff a, Ty.beq_iff b]

lemma beqTys_iff : ∀ ss ts : List Ty, beqTys ss ts = true ↔ ss = ts
  | [], ts => by cases ts <;> simp [beqTys]
  | s :: ss, ts => by cases ts <;> simp [beqTys, Ty.beq_iff s, beqTys_iff ss]

lemma beqTags_iff : ∀ ss ts : List (FieldKey × Ty), beqTags ss ts = true ↔ ss = ts
  | [], ts => by cases ts <;> simp [beqTags]
  | (_, s) :: ss, ts => by
    cases ts <;> simp [beqTags, Ty.beq_iff s, beqTags_iff ss, Prod.ext_iff, and_assoc]

end

instance : DecidableEq Ty := fun s t => decidable_of_iff _ (Ty.beq_iff s t)

namespace Ty

/-- The domain of a function type. -/
def domain : Ty → Option Ty
  | .fn a _ => some a
  | _ => none

/-- The codomain of a function type. -/
def codomain : Ty → Option Ty
  | .fn _ b => some b
  | _ => none

/-- The type beneath its refinements (`Type::peel_refinements`). -/
def peelRefinements : Ty → Ty
  | .refined t _ => t.peelRefinements
  | t => t

/-- The type refined by a predicate; `none` is the trivially true one, which refines nothing
(`refine_with`). -/
def refineWith (t : Ty) : Option ℕ → Ty
  | some predicate => .refined t predicate
  | none => t

/-- `domain ⇒ codomain`, or a hole where either is missing (`Type::compute_fun_or_hole`). -/
def funOrHole : Option Ty → Option Ty → Ty
  | some a, some b => .fn a b
  | _, _ => .hole

/-- `n` collection levels over a value type: `𝐴₁ ⤇ (… ⤇ (𝐴ₙ ⤇ 𝑉))`. -/
def nest : List Ty → Ty → Ty
  | [], v => v
  | a :: as, v => .fn a (nest as v)

@[simp] lemma peelRefinements_fn (a b : Ty) : (fn a b).peelRefinements = .fn a b := rfl
@[simp] lemma peelRefinements_tuple (ts : List Ty) : (tuple ts).peelRefinements = .tuple ts := rfl

@[simp] lemma domain_fn (a b : Ty) : (fn a b).domain = some a := rfl

@[simp] lemma codomain_fn (a b : Ty) : (fn a b).codomain = some b := rfl

@[simp] lemma funOrHole_some (a b : Ty) : funOrHole (some a) (some b) = .fn a b := rfl

mutual

/-- Whether a type is, beneath its refinements, a projected witness or a tuple with a component that
is one: keys that only a collection holds and no extent enumerates. -/
def projected : Ty → Bool
  | .witnessProjection _ => true
  | .refined t _ => t.projected
  | .tuple ts => anyProjected ts
  | _ => false

def anyProjected : List Ty → Bool
  | [] => false
  | t :: ts => t.projected || anyProjected ts

end

end Ty

/-! ## Built-in functions -/

inductive ArithmeticKind where
  | add
  | addRefined
  | sub
  | mul
  | floorDiv
  | pow
deriving DecidableEq, Repr

inductive CompareKind where
  | equals
  | notEquals
  | less
  | lessOrEq
  | greater
  | greaterOrEq
deriving DecidableEq, Repr

inductive LogicKind where
  | and
  | nand
  | or
  | nor
  | xor
  | xnor
deriving DecidableEq, Repr

/-- The scalar operations a term can apply. -/
inductive ScalarOp where
  | arithmetic (kind : ArithmeticKind)
  | boolLogic (kind : LogicKind)
  | concat
  | compare (kind : CompareKind)
  | neg
  | notFn
deriving DecidableEq, Repr

/-- The built-in functions of point-free terms. -/
inductive Builtin where
  | id
  | curry
  | const
  | zip
  | apply
  | map
  | mapDomain
  | compose
  | uncurry (n : ℕ)
  | restrict
  | iterate
  | filterValues
  | variantProject (tag : FieldKey)
  | lookupChecked
  | scalar (op : ScalarOp)
deriving DecidableEq, Repr

/-! ## Terms -/

/-- A term; the last argument of each node is its stamped type. -/
inductive Expr where
  | lit (l : Lit) (ty : Ty)
  | var (x : Name) (ty : Ty)
  | builtin (b : Builtin) (ty : Ty)
  | proj (i : ℕ) (ty : Ty)
  | apply (argument function : Expr) (ty : Ty)
  | tuple (es : List Expr) (ty : Ty)
  | compose (es : List Expr) (ty : Ty)
  | letE (x : Name) (bound body : Expr) (ty : Ty)

mutual

/-- Structural equality of terms, types included. -/
def Expr.beq : Expr → Expr → Bool
  | .lit l s, .lit m t => l == m && s == t
  | .var x s, .var y t => x == y && s == t
  | .builtin b s, .builtin c t => b == c && s == t
  | .proj i s, .proj j t => i == j && s == t
  | .apply a f s, .apply b g t => a.beq b && (f.beq g && s == t)
  | .tuple es s, .tuple fs t => beqExprs es fs && s == t
  | .compose es s, .compose fs t => beqExprs es fs && s == t
  | .letE x a e s, .letE y b f t => x == y && (a.beq b && (e.beq f && s == t))
  | _, _ => false

def beqExprs : List Expr → List Expr → Bool
  | [], [] => true
  | e :: es, f :: fs => e.beq f && beqExprs es fs
  | _, _ => false

end

mutual

lemma Expr.beq_iff : ∀ e f : Expr, e.beq f = true ↔ e = f
  | .lit _ _, f | .var _ _, f | .builtin _ _, f | .proj _ _, f => by cases f <;> simp [Expr.beq]
  | .apply a g _, f => by cases f <;> simp [Expr.beq, Expr.beq_iff a, Expr.beq_iff g]
  | .tuple es _, f | .compose es _, f => by cases f <;> simp [Expr.beq, beqExprs_iff es]
  | .letE _ a e _, f => by cases f <;> simp [Expr.beq, Expr.beq_iff a, Expr.beq_iff e]

lemma beqExprs_iff : ∀ es fs : List Expr, beqExprs es fs = true ↔ es = fs
  | [], fs => by cases fs <;> simp [beqExprs]
  | e :: es, fs => by cases fs <;> simp [beqExprs, Expr.beq_iff e, beqExprs_iff es]

end

instance : DecidableEq Expr := fun e f => decidable_of_iff _ (Expr.beq_iff e f)

namespace Expr

/-- The type stamped on a term. -/
def ty : Expr → Ty
  | .lit _ t => t
  | .var _ t => t
  | .builtin _ t => t
  | .proj _ t => t
  | .apply _ _ t => t
  | .tuple _ t => t
  | .compose _ t => t
  | .letE _ _ _ t => t

/-- A term with another type stamped on it. -/
def withTy : Expr → Ty → Expr
  | .lit l _, t => .lit l t
  | .var x _, t => .var x t
  | .builtin b _, t => .builtin b t
  | .proj i _, t => .proj i t
  | .apply a f _, t => .apply a f t
  | .tuple es _, t => .tuple es t
  | .compose es _, t => .compose es t
  | .letE x b e _, t => .letE x b e t

/-- Whether a term is the built-in `b`. -/
def isBuiltin : Expr → Builtin → Bool
  | .builtin c _, b => c == b
  | _, _ => false

/-- The identity morphism. -/
def isId (e : Expr) : Bool := e.isBuiltin .id

/-- The projection `.n`. -/
def isProjIdx : Expr → ℕ → Bool
  | .proj m _, n => m == n
  | _, _ => false

lemma isBuiltin_iff {e : Expr} {b : Builtin} : e.isBuiltin b = true ↔ ∃ t, e = .builtin b t := by
  cases e <;> simp [isBuiltin]

lemma isProjIdx_iff {e : Expr} {n : ℕ} : e.isProjIdx n = true ↔ ∃ t, e = .proj n t := by
  cases e <;> simp [isProjIdx]

@[simp] lemma withTy_ty (e : Expr) : e.withTy e.ty = e := by cases e <;> rfl

/-! ### Free names and substitution -/

mutual

/-- How often `x` is read free. -/
def countFree (x : Name) : Expr → ℕ
  | .lit _ _ => 0
  | .var y _ => if y = x then 1 else 0
  | .builtin _ _ => 0
  | .proj _ _ => 0
  | .apply a f _ => a.countFree x + f.countFree x
  | .tuple es _ => countFrees x es
  | .compose es _ => countFrees x es
  | .letE y b e _ => b.countFree x + if y = x then 0 else e.countFree x

def countFrees (x : Name) : List Expr → ℕ
  | [] => 0
  | e :: es => e.countFree x + countFrees x es

end

/-- Whether `x` is read free. -/
def isFree (x : Name) (e : Expr) : Bool := 0 < e.countFree x

/-- A chain's type follows its ends once its elements are rewritten. -/
def composeTy (es : List Expr) (t : Ty) : Ty :=
  match es.head?.bind (·.ty.domain), es.getLast?.bind (·.ty.codomain) with
  | some d, some c => .fn d c
  | _, _ => t

mutual

/-- `Subst::discharge(x, term)` applied in place: every free `x` becomes `term`.  A subterm that
does not read `x` is left as it is.  `none` is the failed assertion at a binder that `term` reads,
which would capture it. -/
def discharge (x : Name) (term : Expr) : Expr → Option Expr
  | .lit l t => some (.lit l t)
  | .var y t => some (if y = x then term else .var y t)
  | .builtin b t => some (.builtin b t)
  | .proj i t => some (.proj i t)
  | .apply a f t => do some (.apply (← discharge x term a) (← discharge x term f) t)
  | .tuple es t => do some (.tuple (← discharges x term es) t)
  | .compose es t =>
    if countFrees x es = 0 then some (.compose es t)
    else do
      let es ← discharges x term es
      some (.compose es (composeTy es t))
  | .letE y b e t =>
    if b.countFree x + (if y = x then 0 else e.countFree x) = 0 then some (.letE y b e t)
    else do
      let b ← discharge x term b
      -- Below a binder of its own name the substitution is empty, and captures nothing.
      if y = x then some (.letE y b e t)
      else if term.isFree y then none
      else some (.letE y b (← discharge x term e) t)

def discharges (x : Name) (term : Expr) : List Expr → Option (List Expr)
  | [] => some []
  | e :: es => do some ((← discharge x term e) :: (← discharges x term es))

end

end Expr

end Cambra.Ccl
