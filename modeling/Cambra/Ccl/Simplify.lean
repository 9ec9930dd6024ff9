import Cambra.Ccl.Term

/-!
# The simplifier

`simplify` runs the rule set bottom-up to a fixed point.  Most rules are *pairwise*: they look for
the first two neighbouring steps of a chain that match (`firstWindow`), replace the two and leave
the rest of the chain (`pairwise`).  The discarding rules run only on a term that holds no `iterate`
source.

Every rule is a function `Expr → Outcome`; a rule that does not match declines, and
`letMorphismInline` can abort, where substitution asserts that it captures nothing.  The rule for a
generator over a sum (`compose_with_strength`) matches a source that ends in `unbox` or has a sum
type, which no term here is.
-/

namespace Cambra.Ccl

namespace Expr

/-! ## Iteration sources -/

/-- Whether a term is itself an iteration source, `_ ▷ iterate`. -/
def isIteration : Expr → Bool
  | .apply _ (.builtin .iterate _) _ => true
  | _ => false

mutual

/-- Whether a term holds an iteration source anywhere inside it. -/
def holdsIteration : Expr → Bool
  | .apply a f t => (Expr.apply a f t).isIteration || (a.holdsIteration || f.holdsIteration)
  | .tuple es _ => anyHoldsIteration es
  | .compose es _ => anyHoldsIteration es
  | .letE _ b e _ => b.holdsIteration || e.holdsIteration
  | _ => false

def anyHoldsIteration : List Expr → Bool
  | [] => false
  | e :: es => e.holdsIteration || anyHoldsIteration es

end

/-! ## Matchers and builders -/

/-- `(f, g)` of `⟨f, g⟩`. -/
def asZip : Expr → Option (Expr × Expr)
  | .apply (.tuple [f, g] _) (.builtin .zip _) _ => some (f, g)
  | _ => none

/-- The arms of a zip of two arms or more. -/
def asZipArms : Expr → Option (List Expr)
  | .apply (.tuple es _) (.builtin .zip _) _ => if 2 ≤ es.length then some es else none
  | _ => none

/-- The `f` of `curry(f)`. -/
def asCurry : Expr → Option Expr
  | .apply f (.builtin .curry _) _ => some f
  | _ => none

/-- The `c` of `const(c)`. -/
def asConst : Expr → Option Expr
  | .apply c (.builtin .const _) _ => some c
  | _ => none

/-- The steps before the last of a chain, and the last. -/
def composeSplitLast : Expr → Option (List Expr × Expr)
  | .compose es _ => do
    let last ← es.getLast?
    if es.dropLast.isEmpty then none else some (es.dropLast, last)
  | _ => none

/-- `.0`, or a chain from `.0`: the arm that carries the curried function into `apply`. -/
def isEtaApplyArm : Expr → Bool
  | .proj i _ => i == 0
  | .compose (e :: _ :: _) _ => e.isProjIdx 0
  | _ => false

end Expr

open Cambra.Ccl.Expr

/-- `domain ⇒ codomain` unless one of them is a hole. -/
def Ty.computeFunOrHole : Ty → Ty → Ty
  | .hole, _ => .hole
  | _, .hole => .hole
  | a, b => .fn a b

/-- The type of a chain, read off its ends. -/
def chainTy (es : List Expr) : Ty :=
  .funOrHole (es.head?.bind (·.ty.domain)) (es.getLast?.bind (·.ty.codomain))

def typedTuple (es : List Expr) : Expr := .tuple es (.tuple (es.map Expr.ty))

/-- An application of a built-in, its own type read off the argument and the result. -/
def applyPrimitive (e : Expr) (b : Builtin) (t : Ty) : Expr := .apply e (.builtin b (.fn e.ty t)) t

def zipPairTy (f g : Expr) : Ty :=
  match f.ty, g.ty with
  | .fn a b, .fn _ c => .fn a (.tuple [b, c])
  | _, _ => .hole

/-- `⟨f, g⟩`. -/
def zipPair (f g : Expr) : Expr := .apply (typedTuple [f, g])
    (.builtin .zip (.computeFunOrHole (typedTuple [f, g]).ty (zipPairTy f g))) (zipPairTy f g)

def zipOfTy (arms : List Expr) : Ty :=
  match arms.mapM (·.ty.codomain) with
  | some cs => .funOrHole (arms.head?.bind (·.ty.domain)) (some (.tuple cs))
  | none => .hole

/-- A zip of any arity. -/
def zipOf : List Expr → Expr
  | [f, g] => zipPair f g
  | arms => .apply (typedTuple arms)
      (.builtin .zip (.computeFunOrHole (typedTuple arms).ty (zipOfTy arms))) (zipOfTy arms)

/-- One morphism out of a list: the only one, or the chain of them. -/
def collapseCompose : List Expr → Expr
  | [e] => e
  | es => .compose es (chainTy es)

/-- `⟨x, f⟩ ≫ apply`. -/
def applied (x f : Expr) : Expr :=
  let result := (f.ty.codomain.bind (·.peelRefinements.codomain)).getD .hole
  let applyTy := match (zipPair x f).ty.codomain with
    | some arguments => .computeFunOrHole arguments result
    | none => .hole
  .compose [zipPair x f, .builtin .apply applyTy] (chainTy [zipPair x f, .builtin .apply applyTy])

/-! ## What narrows the keys -/

namespace Expr

/-- Whether a term narrows the keys and leaves no refinement behind: a value filter, or a tag
projection. -/
def narrowsDomainIrrecoverably : Expr → Bool
  | .apply _ f _ => f.isBuiltin .filterValues
  | .builtin (.variantProject _) _ => true
  | _ => false

/-- Whether a term's domain is one whose keys only a collection holds. -/
def keysOnlyInTheData (e : Expr) : Bool :=
  match e.ty.domain with
  | some d => d.projected
  | none => false

mutual

/-- Whether a morphism composed after a collection drops some of its keys, as far as its shape
tells: a narrowing step, or a chain, a zip or a `let` body that holds one. -/
def narrowsKeys : Expr → Bool
  | .apply (.tuple arms _) f _ =>
    f.isBuiltin .filterValues || (f.isBuiltin .restrict ||
      (f.isBuiltin .zip && anyNarrowsKeys arms))
  | .apply _ f _ => f.isBuiltin .filterValues || f.isBuiltin .restrict
  | .builtin (.variantProject _) _ => true
  | .compose es _ => anyNarrowsKeys es
  | .letE _ _ body _ => body.narrowsKeys
  | _ => false

def anyNarrowsKeys : List Expr → Bool
  | [] => false
  | e :: es => e.narrowsKeys || anyNarrowsKeys es

end

end Expr

/-- Whether a built-in, as a step after a collection or as the function a step applies, keeps the
collection's keys. -/
def Builtin.preservesDomain : Builtin → Bool
  | .id => true
  | .const => true
  | .zip => true
  | .apply => true
  | .map => true
  | .scalar _ => true
  | .curry => false
  | .mapDomain => false
  | .compose => false
  | .uncurry _ => false
  | .restrict => false
  | .iterate => false
  | .filterValues => false
  | .variantProject _ => false
  | .lookupChecked => false

namespace Expr

mutual

/-- Whether a morphism composed after a collection leaves its keys as they were. -/
def preservesDomain : Expr → Bool
  | .compose es _ => allPreserveDomain es
  | .tuple es _ => allPreserveDomain es
  | .apply a (.builtin b _) _ =>
    b == .const || (b == .map || (b.preservesDomain && a.preservesDomain))
  | .apply _ _ _ => false
  | .builtin b _ => b.preservesDomain
  | .proj _ _ => true
  | .lit _ _ => true
  | .var _ _ => true
  | .letE _ _ _ _ => false

def allPreserveDomain : List Expr → Bool
  | [] => true
  | e :: es => e.preservesDomain && allPreserveDomain es

end

mutual

/-- Whether an arm is worth distributing a zip over: it reduces once the zip stands before it. -/
def isSimplifying : Expr → Bool
  | .builtin b _ => b == .id
  | .proj _ _ => true
  | .apply (.tuple es _) (.builtin .zip _) _ =>
    decide (2 ≤ es.length) && (allSimplifying es && !es.all isId)
  | .apply _ (.builtin .const _) _ => true
  | .compose (e :: _) _ => e.isSimplifying
  | _ => false

def allSimplifying : List Expr → Bool
  | [] => true
  | e :: es => e.isSimplifying && allSimplifying es

end

/-- A zip whose arms all simplify and are not all the identity. -/
def isSimplifyingZip (e : Expr) : Bool :=
  match e.asZipArms with
  | some arms => allSimplifying arms && !arms.all isId
  | none => false

end Expr

/-! ## Pairwise rules -/

/-- A window of a chain: two neighbouring steps, what stands before them and what after. -/
structure Window where
  pre : List Expr
  left : Expr
  right : Expr
  post : List Expr

/-- The first window of a chain that `detect` accepts. -/
def firstWindow (detect : Expr → Expr → Bool) : List Expr → Option Window
  | l :: r :: rest =>
    if detect l r then some ⟨[], l, r, rest⟩
    else (firstWindow detect (r :: rest)).map fun w => { w with pre := l :: w.pre }
  | _ => none

/-- A survivor of a collapsed chain takes the chain's type; `const` is stamped anew, since its own
type is read off the application it heads. -/
def Expr.collapseTo : Expr → Ty → Expr
  | .apply c (.builtin .const _) _, t => .apply c (.builtin .const (.computeFunOrHole c.ty t)) t
  | e, t => e.withTy t

/-- The chain of the rewritten steps, or the one step that is left. -/
def rebuild : List Expr → Ty → Expr
  | [e], t => e.collapseTo t
  | es, t => .compose es t

/-- Rewrites the first window `rule` accepts (`try_pairwise_in_compose`). -/
def pairwise (rule : Expr → Expr → Option (List Expr)) : Expr → Option Expr
  | .compose es t => do
    let w ← firstWindow (fun l r => (rule l r).isSome) es
    let steps ← rule w.left w.right
    some (rebuild (w.pre ++ steps ++ w.post) t)
  | _ => none

/-- `… ≫ id ≫ …  ⟹  …`. -/
def composeIdentity (l r : Expr) : Option (List Expr) :=
  if l.isId then some [r] else if r.isId then some [l] else none

/-- `⟨const(c), g⟩ ≫ lookup?  ⟹  g ≫ (c ▷ curry(lookup?))`. -/
def partialLookup (l r : Expr) : Option (List Expr) :=
  match r, l.asZip with
  | .builtin .lookupChecked lookupTy, some (constC, keys) => do
    let c ← constC.asConst
    let atKey := Ty.fn (keys.ty.codomain.getD .hole) (lookupTy.codomain.getD .hole)
    let curryTy := Ty.fn c.ty atKey
    some [keys, .apply c (.apply r (.builtin .curry (.fn lookupTy curryTy)) curryTy) atKey]
  | _, _ => none

/-- `⟨id, f ▷ const⟩ ≫ compose  ⟹  id ≫ map(f)`, and `id` alone where `f` is `id`.  The source may
also be one over a sum's witness, which no term here is. -/
def composeConstantFunction (l r : Expr) : Option (List Expr) :=
  match r, l.asZip with
  | .builtin .compose _, some (source, lifted) =>
    if source.isId then do
      let f ← lifted.asConst
      if f.isId then some [source]
      else
        let mappedTy := match source.ty.codomain with
          | some collection => .funOrHole (some collection)
              (match collection.domain, f.ty.codomain with
                | some d, some c => some (.fn d c)
                | _, _ => none)
          | none => .hole
        some [source, applyPrimitive f .map mappedTy]
    else none
  | _, _ => none

/-- `f ≫ g ▷ const  ⟹  g ▷ const`, over the domain of `f`, where `f` is no direct narrowing step
and its keys are not only in the data. -/
def constReduce (l r : Expr) : Option (List Expr) :=
  match r with
  | .apply g (.builtin .const _) rt =>
    if l.narrowsDomainIrrecoverably || l.keysOnlyInTheData then none
    else
      let t := Ty.funOrHole l.ty.domain rt.codomain
      some [.apply g (.builtin .const (.computeFunOrHole g.ty t)) t]
  | _ => none

/-- `⟨f₀, …, fₙ⟩ ≫ .i  ⟹  fᵢ`, where no other arm narrows the keys. -/
def productBeta (l r : Expr) : Option (List Expr) :=
  match r, l.asZipArms with
  | .proj i _, some arms =>
    if arms.zipIdx.all fun (arm, j) => j == i || !arm.narrowsKeys then
      arms[i]?.map fun arm => [arm]
    else none
  | _, _ => none

/-- `⟨.1, .0 ≫ curry(f)⟩ ≫ apply  ⟹  f`. -/
def cccUniversal (l r : Expr) : Option (List Expr) :=
  match r, l.asZip with
  | .builtin .apply _, some (.proj 1 _, .compose [.proj 0 _, c] _) => c.asCurry.map fun f => [f]
  | _, _ => none

/-- `⟨g, curry(h)⟩ ≫ apply  ⟹  ⟨id, g⟩ ≫ h`. -/
def exponentialBeta (l r : Expr) : Option (List Expr) :=
  match r, l.asZip with
  | .builtin .apply _, some (g, c) => c.asCurry.map fun h =>
    [zipPair (.builtin .id (.funOrHole g.ty.domain g.ty.domain)) g, h]
  | _, _ => none

/-- `⟨f, const(g)⟩ ≫ apply  ⟹  f ≫ g`. -/
def constApply (l r : Expr) : Option (List Expr) :=
  match r, l.asZip with
  | .builtin .apply _, some (f, c) => c.asConst.map fun g => [f, g]
  | _, _ => none

/-- `⟨x, ⟨F, G⟩ ≫ compose⟩ ≫ apply  ⟹  ⟨⟨x, F⟩ ≫ apply, G⟩ ≫ apply`. -/
def applyCompose (l r : Expr) : Option (List Expr) :=
  match r, l.asZip with
  | .builtin .apply _, some (x, .compose [pair, .builtin .compose _] _) =>
    pair.asZip.map fun (f, g) => [applied (applied x f) g]
  | _, _ => none

/-- `⟨x, ⟨F, G⟩ ≫ zip⟩ ≫ apply  ⟹  ⟨⟨x, F⟩ ≫ apply, ⟨x, G⟩ ≫ apply⟩`. -/
def applyZip (l r : Expr) : Option (List Expr) :=
  match r, l.asZip with
  | .builtin .apply _, some (x, .compose [pair, .builtin .zip _] _) =>
    pair.asZip.map fun (f, g) => [zipPair (applied x f) (applied x g)]
  | _, _ => none

/-- `⟨x, h ≫ const⟩ ≫ apply  ⟹  h`. -/
def applyConstantValued (l r : Expr) : Option (List Expr) :=
  match r, l.asZip with
  | .builtin .apply _, some (_, m) =>
    match m.composeSplitLast with
    | some (h, last) => if last.isBuiltin .const then some h else none
    | none => none
  | _, _ => none

/-- `⟨f₀, …⟩ ≫ ⟨g₀, …⟩  ⟹  ⟨⟨f₀, …⟩ ≫ g₀, …⟩`, where every `gᵢ` then simplifies. -/
def zipDistributeCompose (l r : Expr) : Option (List Expr) :=
  match l.asZipArms, r.asZipArms with
  | some _, some arms =>
    if r.isSimplifyingZip then
      some [zipOf (arms.map fun arm => .compose [l, arm] (chainTy [l, arm]))]
    else none
  | _, _ => none

/-! ## Rules on other shapes -/

mutual

/-- The steps of a term spliced into a chain: the chain's own, flattened, or the term. -/
def flatStep : Expr → List Expr
  | .compose es _ => flatSteps es
  | e => [e]

def flatSteps : List Expr → List Expr
  | [] => []
  | e :: es => flatStep e ++ flatSteps es

end

/-- Whether a term is a chain. -/
def Expr.isCompose : Expr → Bool
  | .compose _ _ => true
  | _ => false

/-- Splices chains nested in a chain into it. -/
def flattenCompose : Expr → Option Expr
  | .compose es t => if es.any Expr.isCompose then some (.compose (flatSteps es) t) else none
  | _ => none

/-- `(iterate ≫ h) ▷ map_domain  ⟹  iterate`, where `h` keeps the keys and iterates nothing. -/
def mapDomainOfIteration : Expr → Option Expr
  | .apply argument (.builtin .mapDomain _) _ =>
    let steps := match argument with
      | .compose es _ => es
      | e => [e]
    match steps with
    | source :: tail =>
      if source.isIteration && tail.all fun step => step.preservesDomain && !step.holdsIteration
      then some source
      else none
    | [] => none
  | _ => none

/-- `(e₀, …, eₙ).i  ⟹  eᵢ`. -/
def literalTupleProjection : Expr → Option Expr
  | .apply (.tuple es _) (.proj i _) _ => es[i]?
  | _ => none

/-- `⟨f ≫ .0, f ≫ .1⟩  ⟹  f` on a pair. -/
def productEta (e : Expr) : Option Expr := do
  let (left, right) ← e.asZip
  let (lpfx, lp) ← left.composeSplitLast
  let (rpfx, rp) ← right.composeSplitLast
  match lp, rp with
  | .proj 0 (.fn (.tuple [_, _]) _), .proj 1 _ =>
    if lpfx = rpfx then
      some ((match lpfx with
        | [f] => f
        | es => .compose es .hole).withTy e.ty)
    else none
  | _, _ => none

/-- The inner morphism of an `uncurry(k)`: itself where one level is left. -/
def flattened (f : Expr) (k : ℕ) (rest : List Ty) (value : Ty) : Expr :=
  if k = 1 then f
  else applyPrimitive f (.uncurry k) (.fn (.tuple (f.ty.domain.getD .hole :: rest)) value)

/-- The projection of the `i`-th key of a tuple of keys. -/
def keyProj (parts : List Ty) (i : ℕ) : Expr := .proj i (.fn (.tuple parts) (parts[i]?.getD .hole))

/-- What a curried chain ends in: the steps before, the collection composed in front of the curried
morphism, and the morphism. -/
def curriedTail (steps : List Expr) : Option (List Expr × Option Expr × Expr) :=
  match steps.getLast? with
  | none => none
  | some last =>
    match last.asCurry with
    | some g => some (steps.dropLast, none, g)
    | none =>
      if last.isBuiltin .compose then do
        let pair ← steps.dropLast.getLast?
        let (t, c) ← pair.asZip
        some (steps.dropLast.dropLast, some (← t.asConst), ← c.asCurry)
      else none

/-- A key read through a chain, if there is one. -/
def readThrough (keys : Ty) (p : Expr) : List Expr → Expr
  | [] => p
  | [c] => .compose [p, c] (.fn keys (c.ty.codomain.getD .hole))
  | es => .compose [p, .compose es (chainTy es)] (.fn keys ((chainTy es).codomain.getD .hole))

/-- `uncurry(n)` of a curried nest, rewritten into a morphism of the tuple of keys. -/
def uncurryCurried : Expr → Option Expr
  | .apply argument (.builtin (.uncurry n) _) (.fn domain value) =>
    match domain.peelRefinements with
    | .tuple parts =>
      if parts.length = n then
        let t := Ty.fn domain value
        let steps := match argument with
          | .compose es _ => es
          | e => [e]
        match steps.getLast?.bind asConst, (Ty.tuple parts).projected with
        | some c, false =>
          let read := if n = 2 then keyProj parts 1
            else zipOf (((List.range n).drop 1).map (keyProj parts))
          some (.compose [read, flattened c (n - 1) (parts.drop 2) value] t)
        | _, _ => do
          let (s, through, g) ← curriedTail steps
          let g := flattened g (n - 1) (parts.drop 2) value
          if n = 2 ∧ s = [] ∧ through = none then some (g.withTy t)
          else
            let pairing := zipPair (readThrough (.tuple parts) (keyProj parts 0) s)
              (readThrough (.tuple parts) (keyProj parts 1) through.toList)
            let reshaped := if n = 2 then pairing
              else zipOf (pairing :: ((List.range n).drop 2).map (keyProj parts))
            some (.compose [reshaped, g] t)
      else none
    | _ => none
  | _ => none

/-- `curry(⟨.1, .0 ≫ f⟩ ≫ apply ≫ g)  ⟹  f ≫ map(g)`, either of `f` and `g` possibly missing. -/
def exponentialEta : Expr → Option Expr
  | .apply (.compose (zip :: .builtin .apply _ :: suffix) _) (.builtin .curry _) curryTy =>
    match zip.asZip with
    | some (.proj 1 _, arm) =>
      if arm.isEtaApplyArm then
        let f : Option Expr := match arm with
          | .compose (_ :: fs) _ => some (collapseCompose fs)
          | _ => none
        -- A collection narrower than the argument is recorded by the curry's type alone.
        let narrowed := f.isNone && decide (curryTy.domain ≠ curryTy.codomain)
        let suffix := if suffix.isEmpty && narrowed then
            let elem := (curryTy.codomain.bind Ty.codomain).getD .hole
            [.builtin .id (.fn elem elem)]
          else suffix
        let mapTy := match f with
          | none => curryTy
          | some f => .funOrHole f.ty.codomain curryTy.codomain
        match f, suffix with
        | some f, [] => some f
        | none, [] => some (.builtin .id curryTy)
        | some f, suffix =>
          some (.compose [f, applyPrimitive (collapseCompose suffix) .map mapTy] curryTy)
        | none, suffix => some (applyPrimitive (collapseCompose suffix) .map mapTy)
      else none
    | _ => none
  | _ => none

/-! ## The rule set -/

/-- What a rule does at a node. -/
inductive Outcome where
  | declined
  | rewrote (e : Expr)
  | aborted

def Outcome.ofOption : Option Expr → Outcome
  | some e => .rewrote e
  | none => .declined

/-- `let x = m in b  ⟹  b[x := m]`, where `x` is an A-normalization temporary read once and `m` a
morphism. -/
def letMorphismInline : Expr → Outcome
  | .letE x bound body _ =>
    if x.isAnfTemp && bound.ty.domain.isSome && body.countFree x == 1 then
      match discharge x bound body with
      | some e => .rewrote e
      | none => .aborted
    else .declined
  | _ => .declined

/-- The rules, in the order they are tried. -/
inductive Rule where
  | composeIdentity
  | flattenCompose
  | partialLookup
  | composeConstantFunction
  | letMorphismInline
  | mapDomainOfIteration
  | constReduce
  | productBeta
  | literalTupleProjection
  | uncurryCurried
  | cccUniversal
  | exponentialBeta
  | exponentialEta
  | constApply
  | applyCompose
  | applyZip
  | applyConstantValued
  | productEta
  | zipDistributeCompose
deriving DecidableEq, Repr

namespace Rule

/-- The pairwise rules, by the window they rewrite. -/
def window : Rule → Option (Expr → Expr → Option (List Expr))
  | .composeIdentity => some Ccl.composeIdentity
  | .partialLookup => some Ccl.partialLookup
  | .composeConstantFunction => some Ccl.composeConstantFunction
  | .constReduce => some Ccl.constReduce
  | .productBeta => some Ccl.productBeta
  | .cccUniversal => some Ccl.cccUniversal
  | .exponentialBeta => some Ccl.exponentialBeta
  | .constApply => some Ccl.constApply
  | .applyCompose => some Ccl.applyCompose
  | .applyZip => some Ccl.applyZip
  | .applyConstantValued => some Ccl.applyConstantValued
  | .zipDistributeCompose => some Ccl.zipDistributeCompose
  | _ => none

/-- What a rule does at the root of a term. -/
def fire (rule : Rule) (e : Expr) : Outcome :=
  match rule.window with
  | some window => .ofOption (pairwise window e)
  | none =>
    match rule with
    | .flattenCompose => .ofOption (Ccl.flattenCompose e)
    | .letMorphismInline => Ccl.letMorphismInline e
    | .mapDomainOfIteration => .ofOption (Ccl.mapDomainOfIteration e)
    | .literalTupleProjection => .ofOption (Ccl.literalTupleProjection e)
    | .uncurryCurried => .ofOption (Ccl.uncurryCurried e)
    | .exponentialEta => .ofOption (Ccl.exponentialEta e)
    | .productEta => .ofOption (Ccl.productEta e)
    | _ => .declined

/-- The rules that drop or relocate no iteration source. -/
def alwaysSafe : List Rule :=
  [.composeIdentity, .flattenCompose, .partialLookup, .composeConstantFunction, .letMorphismInline,
    .mapDomainOfIteration]

/-- The rules that may discard or restructure subterms. -/
def discarding : List Rule :=
  [.constReduce, .productBeta, .literalTupleProjection, .uncurryCurried, .cccUniversal,
    .exponentialBeta, .exponentialEta, .constApply, .applyCompose, .applyZip, .applyConstantValued,
    .productEta, .zipDistributeCompose]

end Rule

/-! ## The pass -/

/-- Tries the rules in order, each at what the ones before left: whether any fired, and the term. -/
def applyRules : List Rule → Expr → Option (Bool × Expr)
  | [], e => some (false, e)
  | r :: rs, e =>
    match r.fire e with
    | .declined => applyRules rs e
    | .rewrote e => (applyRules rs e).map fun out => (true, out.2)
    | .aborted => none

/-- All rules at the root of a term, the discarding ones only where it holds no iteration. -/
def applySimplificationRules (e : Expr) (containsIteration : Bool) : Option (Bool × Expr) := do
  let (changed, e) ← applyRules Rule.alwaysSafe e
  if containsIteration then some (changed, e)
  else
    let (more, e) ← applyRules Rule.discarding e
    some (changed || more, e)

/-- A term whose children have been simplified: whether anything changed, whether it holds an
iteration, and the term. -/
def finishNode (e : Expr) (changed hasIteration : Bool) : Option (Bool × Bool × Expr) := do
  let containsIteration := hasIteration || e.isIteration
  let (fired, e) ← applySimplificationRules e containsIteration
  some (changed || fired, containsIteration, e)

mutual

/-- One bottom-up pass. -/
def simplifyOnce : Expr → Option (Bool × Bool × Expr)
  | .apply a f t => do
    let (cf, jf, f) ← simplifyOnce f
    let (ca, ja, a) ← simplifyOnce a
    finishNode (.apply a f t) (cf || ca) (jf || ja)
  | .tuple es t => do
    let (c, j, es) ← simplifyEach es
    finishNode (.tuple es t) c j
  | .compose es t => do
    let (c, j, es) ← simplifyEach es
    finishNode (.compose es t) c j
  | .letE x b e t => do
    let (cb, jb, b) ← simplifyOnce b
    let (ce, je, e) ← simplifyOnce e
    finishNode (.letE x b e t) (cb || ce) (jb || je)
  | .lit l t => finishNode (.lit l t) false false
  | .var x t => finishNode (.var x t) false false
  | .builtin b t => finishNode (.builtin b t) false false
  | .proj i t => finishNode (.proj i t) false false

def simplifyEach : List Expr → Option (Bool × Bool × List Expr)
  | [] => some (false, false, [])
  | e :: es => do
    let (c, j, e) ← simplifyOnce e
    let (cs, js, es) ← simplifyEach es
    some (c || cs, j || js, e :: es)

end

/-- Passes until one changes nothing. -/
def simplify (e : Expr) : Option Expr := do
  let (changed, _, e) ← simplifyOnce e
  if changed then (unop% simplify e :) else some e
partial_fixpoint

end Cambra.Ccl
