import Cambra.Tiling.Covered

/-!
# Guards: regions of a tile

The `TileGuard` type of `guard.rs` and its algebra.  A guard nests as the tiling it is over does:
`domain` names keys of a level and everything under them, `codomain` steps under the level, a record
names a part of each field, and a leaf is named under some of the paths that reach it.  `ofOr` is
the union of regions that no single arm holds.

`flattenOr` is the normal form every union goes through: codomain steps are distributed over the
arms, regions that cover a key's whole value are lifted to the key, arms at one place are united,
and what a shallower arm names whole is taken out of the deeper ones.

Everything that can panic answers in `Option`, as for predicates, and so do the operations that call
each other.  Maps are kept as their entries in the order of their names; paths, levels and the
statements of the levels above are innermost first.
-/

namespace Cambra

/-- A region of a tile.  `domain` and `codomain` are the two forms of a `FunctionGuard`. -/
inductive TileGuard where
  /-- A value with no keys of its own, under the paths the predicate names. -/
  | scalar (pred : Predicate)
  /-- A part of each field. -/
  | record (fields : List (String × TileGuard))
  /-- Keys of a level, with what they hold. -/
  | domain (pred : Predicate)
  /-- A part of what the keys of a level hold. -/
  | codomain (inner : TileGuard)
  /-- An aggregate's result, as `scalar`. -/
  | aggregation (pred : Predicate)
  /-- A region in any arm. -/
  | ofOr (arms : List TileGuard)

/-- `pred`, over the keys of level `own`, with `p` also required of level `at_`. -/
def Predicate.requireLevel [ScalarOps] (pred p : Predicate) (at_ own : ℕ) : Option Predicate :=
  match pred with
  | .ofOr arms => do flattenOr (← arms.mapM fun arm => arm |>.requireLevel p at_ own)
  | pred => do
    let (enclosing, here) := pred.splitQualification
    if own = at_ + 1 then return .qualified (← enclosing.intersect p) here
    else return .qualified (← enclosing |>.requireLevel p at_ (own - 1)) here
partial_fixpoint

namespace TileGuard

section Inside

variable {inner : TileGuard} {arms : List TileGuard} {fields : List (String × TileGuard)}

lemma sizeOf_inner_lt : sizeOf inner < sizeOf (codomain inner) := by
  simp only [codomain.sizeOf_spec]
  omega

lemma sizeOf_arm_lt {arm : TileGuard} (h : arm ∈ arms) : sizeOf arm < sizeOf (ofOr arms) := by
  have := List.sizeOf_lt_of_mem h
  simp only [ofOr.sizeOf_spec]
  omega

lemma sizeOf_field_lt {kg : String × TileGuard} (h : kg ∈ fields) :
    sizeOf kg.2 < sizeOf (record fields) := by
  have := sizeOf_snd_lt_of_mem h
  simp only [record.sizeOf_spec]
  omega

end Inside

/-- The enclosing paths a keyless leaf's predicate names it under; a leaf named in part is
refused. -/
def leafRows (pred : Predicate) : Option Predicate :=
  let (enclosing, here) := pred.splitQualification
  if here.isFalse then some .ff
  else if here.isTrue then some enclosing
  else none

/-- Whether the spelling shows that this names everything. -/
def isUniversal : TileGuard → Bool
  | .scalar pred | .aggregation pred | .domain pred => pred.asBool == some true
  | .record fields => (fields.map fun kg => kg.2.isUniversal).all id
  | .codomain inner => inner.isUniversal
  | .ofOr arms => (arms.map fun arm => arm.isUniversal).any id
termination_by g => sizeOf g
decreasing_by
  · exact TileGuard.sizeOf_field_lt ‹kg ∈ fields›
  · exact TileGuard.sizeOf_inner_lt
  · exact TileGuard.sizeOf_arm_lt ‹arm ∈ arms›

/-- Whether the spelling shows that this names nothing. -/
def isEmpty : TileGuard → Bool
  | .scalar pred | .aggregation pred | .domain pred => pred.asBool == some false
  | .record fields => (fields.map fun kg => kg.2.isEmpty).all id
  | .codomain inner => inner.isEmpty
  | .ofOr arms => (arms.map fun arm => arm.isEmpty).all id
termination_by g => sizeOf g
decreasing_by
  · exact TileGuard.sizeOf_field_lt ‹kg ∈ fields›
  · exact TileGuard.sizeOf_inner_lt
  · exact TileGuard.sizeOf_arm_lt ‹arm ∈ arms›

/-- `inner` under `level` codomain steps. -/
def wrapGuard : ℕ → TileGuard → TileGuard
  | 0, inner => inner
  | level + 1, inner => .codomain (wrapGuard level inner)

/-- How many codomain steps a guard starts with, and what they end in. -/
def chainEnd : TileGuard → ℕ × TileGuard
  | .codomain inner => ((chainEnd inner).1 + 1, (chainEnd inner).2)
  | leaf => (0, leaf)

/-- A guard as chains of codomain steps: a step over an `Or` is the `Or` of the step over each
arm. -/
def chains : TileGuard → List TileGuard
  | .ofOr arms => (arms.map fun arm => chains arm).flatten
  | .codomain inner => (chains inner).map .codomain
  | other => [other]
termination_by g => sizeOf g
decreasing_by
  · exact TileGuard.sizeOf_arm_lt ‹arm ∈ arms›
  · exact TileGuard.sizeOf_inner_lt

/-- Whether two guards name the same place: the same nesting, down to the predicate. -/
def samePlace : TileGuard → TileGuard → Bool
  | .domain _, .domain _ => true
  | .codomain x, .codomain y => samePlace x y
  | .record _, .record _ => true
  | .scalar _, .scalar _ => true
  | .aggregation _, .aggregation _ => true
  | _, _ => false

/-- The domain predicate a chain ends in, with how many codomain steps in it sits. -/
def domainAt : TileGuard → Option (ℕ × Predicate)
  | .domain pred => some (0, pred)
  | .codomain inner => (domainAt inner).map fun at_ => (at_.1 + 1, at_.2)
  | _ => none

/-- A chain `domainAt` reads, naming `pred` at its end instead. -/
def withDomain : TileGuard → Predicate → Option TileGuard
  | .domain _, pred => some (.domain pred)
  | .codomain inner, pred => (withDomain inner pred).map .codomain
  | _, _ => none

/-- Whether this is a function's guard. -/
def isFunction : TileGuard → Bool
  | .domain _ => true
  | .codomain _ => true
  | _ => false

/-- Whether an arm names everything under its enclosing paths. -/
def namesWhole : Predicate → Bool
  | .ofQualified _ here => here.isTrue
  | _ => false

section Ops

variable [ScalarOps]

/-- The intersection of what `f` answers over `xs`. -/
def intersectOver {α : Type} (f : α → Option Predicate) (xs : List α) : Option Predicate :=
  xs.foldlM (fun all x => do Predicate.intersect all (← f x)) .tt

/-- The enclosing paths under which a predicate admits every key. -/
def wholeUnder : Predicate → Option Predicate
  | .ofOr arms => Predicate.unionOver (fun arm => wholeUnder arm.1) arms.attach
  | .ofQualified enclosing here =>
    if (Predicate.ofQualified enclosing here).isTrue then some .tt
    else if here.isTrue then some enclosing
    else some .ff
  | pred => if pred.isTrue then some .tt else some .ff
termination_by p => sizeOf p
decreasing_by
  exact Predicate.sizeOf_arm_lt arm.2

/-- The paths reaching a guard under which it names everything. -/
def wholeRows (guard : TileGuard) : Option Predicate :=
  if guard.isUniversal then some .tt
  else if guard.isEmpty then some .ff
  else match guard with
    | .scalar pred => leafRows pred
    | .aggregation pred => leafRows pred
    | .domain pred => wholeUnder pred
    | .codomain inner => do wholeUnder (← wholeRows inner)
    | .record fields => intersectOver (fun kg => wholeRows kg.1.2) fields.attach
    | .ofOr arms => Predicate.unionOver (fun arm => wholeRows arm.1) arms.attach
termination_by sizeOf guard
decreasing_by
  · exact TileGuard.sizeOf_inner_lt
  · exact TileGuard.sizeOf_field_lt kg.2
  · exact TileGuard.sizeOf_arm_lt arm.2

alias wholeRows_def := wholeRows.eq_def

/-- `pred` without what the levels above name whole. -/
def keepUncovered (pred : Predicate) (covered : List Predicate) : Option Predicate := do
  return (← pred.withoutCovered covered).getD pred

/-- What each level's domain arm names, outermost first, `False` where no arm does. -/
def wholeAbove (depths : List (ℕ × Predicate)) (deepest : ℕ) : List Predicate :=
  depths.foldl (fun above at_ => above.set at_.1 at_.2) (List.replicate (deepest + 1) .ff)

/-- One arm without what a shallower domain arm names whole. -/
def armWithoutCovered (above : List Predicate) (arm : TileGuard) : Option TileGuard :=
  match domainAt arm with
  | some (depth, pred) =>
    if 0 < depth then do
      (← pred.withoutCovered (above.take depth).reverse).elim (some arm) (withDomain arm)
    else some arm
  | none => some arm

/-- The arms that name something, or the first where none does. -/
def dropEmpty (arms : List TileGuard) : List TileGuard :=
  if arms.any fun arm => !arm.isEmpty then arms.filter fun arm => !arm.isEmpty else arms.take 1

/-- `arms` without what a shallower domain arm names whole. -/
def withoutCoveredArms (arms : List TileGuard) : Option (List TileGuard) :=
  let depths := arms.filterMap domainAt
  match (depths.map (·.1)).max? with
  | none => some arms
  | some deepest => do
    return dropEmpty (← arms.mapM (armWithoutCovered (wholeAbove depths deepest)))

/-- One guard for the arms `flatten_or` is left with; it takes for granted that one is. -/
def ofMerged : List TileGuard → Option TileGuard
  | [] => none
  | [one] => some one
  | merged => some (.ofOr merged)

mutual

/-- A chain's regions that cover a key's whole value, lifted to the key; what is left stays where it
is. -/
def lift (chain : TileGuard) : Option (List TileGuard) :=
  let (depth, leaf) := chainEnd chain
  match depth with
  | 0 => some [chain]
  | above + 1 =>
    if leaf.isUniversal then wrapGuard above (.domain .tt) |>.lift
    else match leaf with
      | .domain pred =>
        let whole := pred.orArms.filter namesWhole
        let part := pred.orArms.filter fun arm => !namesWhole arm
        if whole.isEmpty then some [chain]
        else do
          let lifted ← whole.mapM fun arm =>
            wrapGuard above (.domain arm.splitQualification.1) |>.lift
          if part.isEmpty then some lifted.flatten
          else return lifted.flatten ++
            [wrapGuard (above + 1) (.domain (← Predicate.flattenOr part))]
      | .scalar pred => do
        let rows ← leafRows pred
        if rows.isFalse then some [chain] else wrapGuard above (.domain rows) |>.lift
      | .aggregation pred => do
        let rows ← leafRows pred
        if rows.isFalse then some [chain] else wrapGuard above (.domain rows) |>.lift
      | .record fields => binop% liftRecord fields (above + 1)
      | _ => some [chain]
partial_fixpoint

/-- A record under `depth` codomain steps, with the keys above it that every field names whole
lifted to those keys. -/
def liftRecord (fields : List (String × TileGuard)) (depth : ℕ) : Option (List TileGuard) := do
  let whole ← intersectOver (fun kg : String × TileGuard => wholeRows kg.2) fields
  if whole.isFalse then some [wrapGuard depth (.record fields)]
  else do
    let lifted ← wrapGuard (depth - 1) (.domain whole) |>.lift
    let rest ← fields.mapM fun kg => do
      return (kg.1, ← kg.2 |>.withoutCoveredKeys (whole :: List.replicate (depth - 1) .ff))
    if (TileGuard.record rest).isEmpty then some lifted
    else some (lifted ++ [wrapGuard depth (.record rest)])
partial_fixpoint

/-- `guard` without what the levels above it name whole. -/
def withoutCoveredKeys (guard : TileGuard) (covered : List Predicate) : Option TileGuard :=
  match guard with
  | .scalar pred => do return .scalar (← keepUncovered pred covered)
  | .aggregation pred => do return .aggregation (← keepUncovered pred covered)
  | .domain pred => do return .domain (← keepUncovered pred covered)
  | .codomain inner => do return .codomain (← inner |>.withoutCoveredKeys (.ff :: covered))
  | .record fields => do
    return .record (← fields.mapM fun kg => do return (kg.1, ← kg.2 |>.withoutCoveredKeys covered))
  | .ofOr arms => do unop% flattenOr (← arms.mapM fun arm => arm |>.withoutCoveredKeys covered)
partial_fixpoint

/-- The union of two guards naming the same place. -/
def unionInPlace (a b : TileGuard) : Option TileGuard :=
  match a, b with
  | .domain p, .domain q => do return .domain (← Predicate.union p q)
  | .codomain x, .codomain y => do return .codomain (← x |>.unionInPlace y)
  | .record _, .record _ => a |>.union b
  | .scalar _, .scalar _ => a |>.union b
  | .aggregation _, .aggregation _ => a |>.union b
  | _, _ => none
partial_fixpoint

/-- The one function guard two function guards' union is, or `some none` where there is none. -/
def functionUnion (a b : TileGuard) : Option (Option TileGuard) :=
  if a.isEmpty then some (some b)
  else if b.isEmpty then some (some a)
  else if a.isUniversal then some (some a)
  else if b.isUniversal then some (some b)
  else match a, b with
    | .domain p, .domain q => do return some (.domain (← Predicate.union p q))
    | .codomain x, .codomain y => do return some (.codomain (← x |>.union y))
    | _, _ => some none
partial_fixpoint

/-- The regions of two guards over one tiling together. -/
def union (self other : TileGuard) : Option TileGuard :=
  match self, other with
  | .scalar p, .scalar q => do return .scalar (← Predicate.union p q)
  | .aggregation p, .aggregation q => do return .aggregation (← Predicate.union p q)
  | .record m₁, .record m₂ =>
    if m₁.length = m₂.length then do
      return .record (← m₁.mapM fun kg => do
        let other ← m₂.lookup kg.1
        return (kg.1, ← kg.2 |>.union other))
    else none
  | .ofOr arms, g => unop% flattenOr (arms ++ [g])
  | g, .ofOr arms => unop% flattenOr (arms ++ [g])
  | a, b =>
    if a.isFunction && b.isFunction then do
      match ← a |>.functionUnion b with
      | some merged => unop% flattenOr [merged]
      | none => unop% flattenOr [a, b]
    else none
partial_fixpoint

/-- One guard for the union of some arms, in normal form.  No arms are refused. -/
def flattenOr (arms : List TileGuard) : Option TileGuard := do
  let flat := (← (arms.map chains).flatten.mapM fun chain => chain |>.lift).flatten
  match flat.find? isUniversal with
  | some everything => some everything
  | none => do
    let merged ← (dropEmpty flat).foldlM (fun merged arm =>
      match merged.findIdx? fun g => samePlace g arm with
      | some i => do
        let g ← merged[i]?
        return merged.set i (← g |>.unionInPlace arm)
      | none => some (merged ++ [arm])) []
    ofMerged (← withoutCoveredArms merged)
partial_fixpoint

end

/-! The equations the operations are unfolded by. -/

alias lift_def := lift.eq_def

alias liftRecord_def := liftRecord.eq_def

alias withoutCoveredKeys_def := withoutCoveredKeys.eq_def

alias unionInPlace_def := unionInPlace.eq_def

alias functionUnion_def := functionUnion.eq_def

alias union_def := union.eq_def

alias flattenOr_def := flattenOr.eq_def

/-- `guard`, sitting at `level`, with `p` also required of the key at level `at_`. -/
def requireAt (guard : TileGuard) (p : Predicate) (at_ level : ℕ) : Option TileGuard :=
  match guard with
  | .domain pred => do return .domain (← pred.requireLevel p at_ level)
  | .codomain inner => do return .codomain (← inner |>.requireAt p at_ (level + 1))
  | .ofOr arms => do flattenOr (← arms.mapM fun arm => arm |>.requireAt p at_ level)
  | .record fields => do
    return .record (← fields.mapM fun kg => do return (kg.1, ← kg.2 |>.requireAt p at_ level))
  | .scalar pred => do return .scalar (← pred.requireLevel p at_ level)
  | .aggregation pred => do return .aggregation (← pred.requireLevel p at_ level)
partial_fixpoint

/-- The meet of two guards over one tiling, at the level they sit at. -/
def intersectAt (self other : TileGuard) (level : ℕ) : Option TileGuard :=
  match self, other with
  | .scalar p, .scalar q => do return .scalar (← Predicate.intersect p q)
  | .aggregation p, .aggregation q => do return .aggregation (← Predicate.intersect p q)
  | .record m₁, .record m₂ =>
    if m₁.length = m₂.length then do
      return .record (← m₁.mapM fun kg => do
        let other ← m₂.lookup kg.1
        return (kg.1, ← kg.2 |>.intersectAt other level))
    else none
  | .ofOr arms, g => do flattenOr (← arms.mapM fun arm => arm |>.intersectAt g level)
  | g, .ofOr arms => do flattenOr (← arms.mapM fun arm => arm |>.intersectAt g level)
  | a, b =>
    if a.isFunction && b.isFunction then
      if a.isEmpty then some a
      else if b.isEmpty then some b
      else if a.isUniversal then some b
      else if b.isUniversal then some a
      else match a, b with
        | .domain p, .domain q => do return .domain (← Predicate.intersect p q)
        | .codomain x, .codomain y => do return .codomain (← x |>.intersectAt y (level + 1))
        | .domain p, .codomain g => do return .codomain (← requireAt g p level (level + 1))
        | .codomain g, .domain p => do return .codomain (← requireAt g p level (level + 1))
        | _, _ => none
    else none
partial_fixpoint

/-- The meet of two guards over one tiling. -/
def intersect (self other : TileGuard) : Option TileGuard := intersectAt self other 0

end Ops

/-- Whether the guard covers the path through the keys `above` that goes on with `rest`, outermost
first.  A row of a record is covered where every field of it is. -/
def coversAt (self : TileGuard) (above rest : List Value) : Option Bool :=
  match self with
  | .ofOr arms => arms.anyM fun arm => arm |>.coversAt above rest
  | .domain pred =>
    match rest with
    | [] => some false
    | key :: _ => pred.containsPath (key :: above)
  | .codomain inner =>
    match rest with
    | key :: next :: rest => inner |>.coversAt (key :: above) (next :: rest)
    -- a key is there only through what it maps to
    | _ => some inner.isUniversal
  | .record fields => fields.allM fun kg => kg.2 |>.coversAt above rest
  | .scalar pred | .aggregation pred => do
    let rows ← leafRows pred
    if rows.isTrue then some true else rows.containsPath above
partial_fixpoint

/-- Whether the guard covers the path, outermost key first. -/
def coversPath (self : TileGuard) (path : List Value) : Option Bool := coversAt self [] path

/-- Whether a guard, under the levels `above`, is one over the tiling. -/
def checkFromUnder (self : TileGuard) (tiling : Tiling) (above : List Extent) : Option Bool :=
  match self, tiling with
  | .scalar pred, .scalar => do
    let rows ← leafRows pred
    return rows.asBool.isSome || rows.isApplicableOver above
  | .aggregation pred, .aggregation => do
    let rows ← leafRows pred
    return rows.asBool.isSome || rows.isApplicableOver above
  | .domain pred, .store own => some (pred.isApplicableOver (own :: above))
  | .domain pred, .dataFunction own _ => some (pred.isApplicableOver (own :: above))
  | .codomain inner, .dataFunction own values => inner |>.checkFromUnder values (own :: above)
  | .record fields, .record tilings =>
    if fields.length = tilings.length then
      fields.allM fun kg =>
        match tilings.lookup kg.1 with
        | some tiling => kg.2 |>.checkFromUnder tiling above
        | none => some false
    else some false
  | .ofOr arms, tiling => arms.allM fun arm => arm |>.checkFromUnder tiling above
  | _, _ => some false
partial_fixpoint

/-- Whether a guard is one over the tiling. -/
def checkFrom (self : TileGuard) (tiling : Tiling) : Option Bool := checkFromUnder self tiling []

end TileGuard

end Cambra
