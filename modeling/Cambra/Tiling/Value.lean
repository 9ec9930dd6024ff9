import Cambra.Lib.Interval
import Mathlib.Data.String.Basic
import Mathlib.Order.Fin.Basic
import Mathlib.Data.Sum.Order
import Mathlib.Algebra.Order.Ring.Int

/-!
# Values, extents and the points of a key

The keys a tile is indexed by are values of an extent.  `Value` keeps the source's cases that can
be keys; its four ordered base types are grouped as `ScalarType`, since those are the types an
interval set is ever built over, each with its own `Domain` (`Value::try_adjacent`).

A hash map (a record's fields) and a `TagMap` (a union's arms) are kept as their entries in the
order of their keys.

Over the values stand the *points* of an extent (`KeyPoint`, `InExtent`).  A predicate is built by
operations that see of a scalar type only its order and neighbours, and of a union only the tags
that are named; the points of an extent are what those operations can tell apart: the line of a
scalar type (`Point`), and for a union one more tag that nothing names.  Every value is a point
(`Value.point`), and every extent has one (`Extent.exists_point`).
-/

namespace Cambra

open Option

/-! ## Field keys -/

/-- A tag of a union: a position or a name. -/
inductive FieldKey where
  | index (i : ℕ)
  | name (label : String)
deriving DecidableEq, Repr

namespace FieldKey

/-- Positions come before names. -/
def toSum : FieldKey → ℕ ⊕ₗ String
  | .index i => Sum.inlₗ i
  | .name label => Sum.inrₗ label

lemma toSum_injective : Function.Injective toSum := by
  rintro (i | l) (j | m) h <;> simp_all [toSum, Sum.inlₗ, Sum.inrₗ]

instance : LinearOrder FieldKey := LinearOrder.lift' toSum toSum_injective

end FieldKey

/-! ## Scalar types -/

/-- A signed 64-bit integer. -/
abbrev I64 := {i : ℤ // -2 ^ 63 ≤ i ∧ i < 2 ^ 63}

/-- An unsigned 64-bit integer. -/
abbrev U64 := Fin (2 ^ 64)

instance U64.neZero : NeZero (2 ^ 64) := ⟨by decide⟩

/-- The ordered base types: those an interval set is built over. -/
inductive ScalarType where
  | int
  | uint
  | bool
  | string
deriving DecidableEq, Repr

/-- The values of a scalar type. -/
abbrev ScalarType.Val : ScalarType → Type
  | .int => I64
  | .uint => U64
  | .bool => Bool
  | .string => String

instance : Domain I64 where
  toLinearOrder := inferInstance
  tryAdjacent
    | .left, i => if h : -2 ^ 63 ≤ i.1 - 1 then some ⟨i.1 - 1, h, by omega⟩ else none
    | .right, i => if h : i.1 + 1 < 2 ^ 63 then some ⟨i.1 + 1, by omega, h⟩ else none
  covBy_of_adjacent := by
    rintro ⟨a, ha⟩ ⟨b, hb⟩ h
    simp only [dite_none_right_eq_some, Option.some.injEq, Subtype.mk.injEq] at h
    obtain ⟨_, rfl⟩ := h
    refine ⟨Subtype.mk_lt_mk.mpr (by omega), ?_⟩
    rintro ⟨c, hc⟩ hac hcb
    simp only [Subtype.mk_lt_mk] at hac hcb
    omega
  adjacent_left_iff := by
    rintro ⟨a, ha⟩ ⟨b, hb⟩
    simp only [dite_none_right_eq_some, Option.some.injEq, Subtype.mk.injEq, exists_prop]
    omega

instance : Domain U64 where
  toLinearOrder := inferInstance
  tryAdjacent
    | .left, i => if 1 ≤ i.1 then some ⟨i.1 - 1, by omega⟩ else none
    | .right, i => if h : i.1 + 1 < 2 ^ 64 then some ⟨i.1 + 1, h⟩ else none
  covBy_of_adjacent := by
    rintro ⟨a, ha⟩ ⟨b, hb⟩ h
    simp only [dite_none_right_eq_some, Option.some.injEq, Fin.mk.injEq] at h
    obtain ⟨_, rfl⟩ := h
    refine ⟨by simp [Fin.lt_def], ?_⟩
    rintro ⟨c, hc⟩ hac hcb
    simp only [Fin.lt_def] at hac hcb
    omega
  adjacent_left_iff := by
    rintro ⟨a, ha⟩ ⟨b, hb⟩
    simp only [dite_none_right_eq_some, ite_none_right_eq_some, Option.some.injEq,
      Fin.mk.injEq, exists_prop]
    omega

instance : Domain Bool where
  toLinearOrder := inferInstance
  tryAdjacent
    | .left, b => if b then some false else none
    | .right, b => if b then none else some true
  covBy_of_adjacent := by rintro (_ | _) (_ | _) h <;> simp_all [CovBy]
  adjacent_left_iff := by rintro (_ | _) (_ | _) <;> simp

/-- A string names no neighbour. -/
instance : Domain String where
  toLinearOrder := inferInstance
  tryAdjacent _ _ := none
  covBy_of_adjacent := by simp
  adjacent_left_iff := by simp

instance (τ : ScalarType) : Domain τ.Val :=
  match τ with
  | .int => inferInstanceAs (Domain I64)
  | .uint => inferInstanceAs (Domain U64)
  | .bool => inferInstanceAs (Domain Bool)
  | .string => inferInstanceAs (Domain String)

/-- The whole of a scalar type as an interval. -/
def typeRange : (τ : ScalarType) → Interval τ.Val
  | .uint => ⟨some ⟨false, (0 : U64)⟩, none⟩
  | .int => ⟨some ⟨false, (⟨-2 ^ 63, by decide⟩ : I64)⟩,
      some ⟨false, (⟨2 ^ 63 - 1, by decide⟩ : I64)⟩⟩
  | .bool => ⟨some ⟨false, false⟩, some ⟨false, true⟩⟩
  | .string => ⟨some ⟨false, ""⟩, none⟩

lemma point_ne_typeRange {τ : ScalarType} (v : τ.Val) :
    (⟨some ⟨false, v⟩, some ⟨false, v⟩⟩ : Interval τ.Val) ≠ typeRange τ := by
  cases τ with
  | uint | string => simp [typeRange]
  | int | bool =>
    simp only [typeRange, ne_eq, Interval.mk.injEq, Option.some.injEq, Bound.mk.injEq, true_and]
    rintro ⟨rfl, h⟩
    simp at h

/-! ## Values and extents -/

/-- A value that can be a key.  A record's fields stand in the order of their names. -/
inductive Value where
  /-- `Int`, `UInt`, `Bool` or `String`. -/
  | scalar (τ : ScalarType) (v : τ.Val)
  | unit
  | record (fields : List (String × Value))
  | union (tag : FieldKey) (inner : Value)

/-- The base types. -/
inductive BaseType where
  | int
  | uint
  | string
  | bool
  | unit
deriving DecidableEq, Repr

/-- An extent: the values a key ranges over.  Which indices a `UIntRange` holds and what a
restriction admits are read by no function of the predicates, and are left out. -/
inductive Extent where
  | base (b : BaseType)
  | function (domain codomain : Extent)
  | record (fields : List (String × Extent))
  | union (arms : List (FieldKey × Extent))
  | uintRange
  | dataSourceDomain (element : Extent)
  | restricted (base : Extent)

namespace Extent

/-- The scalar type whose values an extent's interval sets are over (`value_is_of_extent`). -/
def scalarType : Extent → Option ScalarType
  | .base .int => some .int
  | .base .uint => some .uint
  | .base .bool => some .bool
  | .base .string => some .string
  | .uintRange => some .uint
  | _ => none

/-- The extent behind one transparent wrapper, as `applies_to_level` resolves it. -/
def resolve : Extent → Extent
  | .dataSourceDomain element => element
  | .restricted inner => inner
  | other => other

end Extent

/-- `v` is a value of the extent, by its shape. -/
inductive Value.OfExtent : Extent → Value → Prop
  | scalar {e : Extent} {τ : ScalarType} (h : e.scalarType = some τ) (v : τ.Val) :
      OfExtent e (.scalar τ v)
  | unit : OfExtent (.base .unit) .unit
  | record {es : List (String × Extent)} {fields : List (String × Value)}
      (hsome : ∀ k e, es.lookup k = some e → (fields.lookup k).isSome)
      (h : ∀ k e v, es.lookup k = some e → fields.lookup k = some v → OfExtent e v) :
      OfExtent (.record es) (.record fields)
  | union {arms : List (FieldKey × Extent)} {tag : FieldKey} {e : Extent} {inner : Value}
      (htag : arms.lookup tag = some e) (h : OfExtent e inner) :
      OfExtent (.union arms) (.union tag inner)
  | dataSourceDomain {e : Extent} {v : Value} (h : OfExtent e v) : OfExtent (.dataSourceDomain e) v
  | restricted {e : Extent} {v : Value} (h : OfExtent e v) : OfExtent (.restricted e) v

/-- `v` is a value of the extent with its unions read as open: under a tag that a union does not
list, anything may stand. -/
inductive Value.OfOpen : Extent → Value → Prop
  | scalar {e : Extent} {τ : ScalarType} (h : e.scalarType = some τ) (v : τ.Val) :
      OfOpen e (.scalar τ v)
  | unit : OfOpen (.base .unit) .unit
  | record {es : List (String × Extent)} {fields : List (String × Value)}
      (hsome : ∀ k e, es.lookup k = some e → (fields.lookup k).isSome)
      (h : ∀ k e v, es.lookup k = some e → fields.lookup k = some v → OfOpen e v) :
      OfOpen (.record es) (.record fields)
  | union {arms : List (FieldKey × Extent)} {tag : FieldKey} {e : Extent} {inner : Value}
      (htag : arms.lookup tag = some e) (h : OfOpen e inner) :
      OfOpen (.union arms) (.union tag inner)
  | unlisted {arms : List (FieldKey × Extent)} {tag : FieldKey} {inner : Value}
      (htag : arms.lookup tag = none) : OfOpen (.union arms) (.union tag inner)
  | dataSourceDomain {e : Extent} {v : Value} (h : OfOpen e v) : OfOpen (.dataSourceDomain e) v
  | restricted {e : Extent} {v : Value} (h : OfOpen e v) : OfOpen (.restricted e) v

lemma Value.OfExtent.toOpen {e : Extent} {v : Value} (h : v.OfExtent e) : v.OfOpen e := by
  induction h with
  | scalar h v => exact .scalar h v
  | unit => exact .unit
  | record hsome _ ih => exact .record hsome ih
  | union htag _ ih => exact .union htag ih
  | dataSourceDomain _ ih => exact .dataSourceDomain ih
  | restricted _ ih => exact .restricted ih

/-! ## Points -/

/-- A point of an extent. -/
inductive KeyPoint where
  | scalar (τ : ScalarType) (x : Point τ.Val)
  | unit
  | record (fields : String → KeyPoint)
  /-- A point under a tag, or under one that no predicate names. -/
  | tag (tag : Option FieldKey) (inner : KeyPoint)

/-- A point of the line of a scalar type, within the type's range. -/
def ScalarType.InRange (τ : ScalarType) (x : Point τ.Val) : Prop := x.Valid ∧ (typeRange τ).Mem x

/-- The points of an extent. -/
inductive InExtent : Extent → KeyPoint → Prop
  | scalar {e : Extent} {τ : ScalarType} (h : e.scalarType = some τ) {x : Point τ.Val}
      (hx : τ.InRange x) : InExtent e (.scalar τ x)
  | unit : InExtent (.base .unit) .unit
  | function {d c : Extent} : InExtent (.function d c) .unit
  | record {es : List (String × Extent)} {f : String → KeyPoint}
      (h : ∀ k e, es.lookup k = some e → InExtent e (f k)) : InExtent (.record es) (.record f)
  | named {arms : List (FieldKey × Extent)} {tag : FieldKey} {e : Extent} {x : KeyPoint}
      (htag : arms.lookup tag = some e) (h : InExtent e x) :
      InExtent (.union arms) (.tag (some tag) x)
  | unnamed {arms : List (FieldKey × Extent)} {x : KeyPoint} : InExtent (.union arms) (.tag none x)
  | dataSourceDomain {e : Extent} {x : KeyPoint} (h : InExtent e x) :
      InExtent (.dataSourceDomain e) x
  | restricted {e : Extent} {x : KeyPoint} (h : InExtent e x) : InExtent (.restricted e) x

mutual

/-- The point a value is. -/
def Value.point : Value → KeyPoint
  | .scalar τ v => .scalar τ (.here v)
  | .unit => .unit
  | .record fields => .record (Value.fieldPoint fields)
  | .union tag inner => .tag (some tag) inner.point

/-- The point of the field of a name; a name no field has is not read. -/
def Value.fieldPoint : List (String × Value) → String → KeyPoint
  | [], _ => .unit
  | (k, v) :: rest, name => if name == k then v.point else Value.fieldPoint rest name

end

lemma Value.fieldPoint_getD (fields : List (String × Value)) (k : String) :
    Value.fieldPoint fields k = ((fields.lookup k).map Value.point).getD .unit := by
  induction fields with
  | nil => rfl
  | cons kv rest ih =>
    rw [Value.fieldPoint, List.lookup_cons, ih]
    cases k == kv.1 <;> rfl

lemma Value.fieldPoint_eq {fields : List (String × Value)} {k : String} {v : Value}
    (h : fields.lookup k = some v) : Value.fieldPoint fields k = v.point := by
  rw [Value.fieldPoint_getD, h]
  rfl

lemma typeRange_mem_here (τ : ScalarType) (v : τ.Val) : (typeRange τ).Mem (.here v) := by
  cases τ with
  | int =>
    have h₁ : ((⟨-2 ^ 63, by decide⟩ : I64) : I64) ≤ v := Subtype.mk_le_mk.mpr v.2.1
    have h₂ : v ≤ (⟨2 ^ 63 - 1, by decide⟩ : I64) := Subtype.mk_le_mk.mpr (by have := v.2.2; omega)
    simpa [typeRange, Interval.Mem, Bound.Holds, Point.Lt, Point.Gt] using ⟨h₁, h₂⟩
  | uint => simp [typeRange, Interval.Mem, Bound.Holds, Point.Lt]
  | bool => simp [typeRange, Interval.Mem, Bound.Holds, Point.Lt, Point.Gt]
  | string =>
    have h : ¬(v : String) < "" := by
      rw [String.lt_iff_toList_lt]
      exact List.not_lt_nil _
    refine ⟨fun l hl => ?_, by simp [typeRange]⟩
    obtain rfl : (⟨false, ""⟩ : Bound String) = l := Option.some.inj hl
    exact h

lemma Value.OfExtent.point {e : Extent} {v : Value} (h : v.OfExtent e) : InExtent e v.point := by
  induction h with
  | scalar h v => exact .scalar h ⟨trivial, typeRange_mem_here _ v⟩
  | unit => exact .unit
  | record hsome _ ih =>
    refine .record fun k e hke => ?_
    obtain ⟨v, hv⟩ := isSome_iff_exists.mp (hsome k e hke)
    rw [Value.fieldPoint_eq hv]
    exact ih k e v hke hv
  | union htag _ ih => exact .named htag ih
  | dataSourceDomain _ ih => exact .dataSourceDomain ih
  | restricted _ ih => exact .restricted ih

lemma ScalarType.exists_inRange (τ : ScalarType) : ∃ x, τ.InRange x := by
  have : Nonempty τ.Val := by
    cases τ
    · exact ⟨⟨0, by decide⟩⟩
    · exact ⟨(0 : U64)⟩
    · exact ⟨false⟩
    · exact ⟨""⟩
  obtain ⟨v⟩ := this
  exact ⟨.here v, trivial, typeRange_mem_here τ v⟩

lemma Extent.exists_point_of_scalarType {e : Extent} {τ : ScalarType}
    (h : e.scalarType = some τ) : ∃ x, InExtent e x := by
  obtain ⟨x, hx⟩ := τ.exists_inRange
  exact ⟨.scalar τ x, .scalar h hx⟩

mutual

/-- **Every extent has a point**, whatever its values. -/
theorem Extent.exists_point : ∀ e : Extent, ∃ x, InExtent e x
  | .base .int | .base .uint | .base .bool | .base .string => Extent.exists_point_of_scalarType rfl
  | .base .unit => ⟨.unit, .unit⟩
  | .function _ _ => ⟨.unit, .function⟩
  | .record fields => by
    obtain ⟨f, hf⟩ := Extent.exists_fieldPoints fields
    exact ⟨.record f, .record hf⟩
  | .union _ => ⟨.tag none .unit, .unnamed⟩
  | .uintRange => Extent.exists_point_of_scalarType rfl
  | .dataSourceDomain element => by
    obtain ⟨x, hx⟩ := Extent.exists_point element
    exact ⟨x, .dataSourceDomain hx⟩
  | .restricted inner => by
    obtain ⟨x, hx⟩ := Extent.exists_point inner
    exact ⟨x, .restricted hx⟩

lemma Extent.exists_fieldPoints : ∀ fields : List (String × Extent),
    ∃ f : String → KeyPoint, ∀ k e, fields.lookup k = some e → InExtent e (f k)
  | [] => ⟨fun _ => .unit, by simp⟩
  | (name, extent) :: rest => by
    obtain ⟨x, hx⟩ := Extent.exists_point extent
    obtain ⟨f, hf⟩ := Extent.exists_fieldPoints rest
    refine ⟨fun k => if k == name then x else f k, fun k e h => ?_⟩
    rw [List.lookup_cons] at h
    by_cases hk : (k == name) = true
    · simp only [hk, Option.some.injEq] at h
      simpa [hk] using h ▸ hx
    · rw [Bool.not_eq_true] at hk
      simp only [hk] at h
      simpa [hk] using hf k e h

end

/-! ## Tuples -/

/-- The name of a tuple's field. -/
def tupleField (i : ℕ) : String := "_" ++ toString i

/-- The tuple's elements under their field names. -/
def tupleFields {α : Type} (items : List α) : List (String × α) :=
  items.zipIdx.map fun (item, i) => (tupleField i, item)

lemma tupleField_injective : Function.Injective tupleField := fun i j h => by
  have hdigits : Nat.toDigits 10 i = Nat.toDigits 10 j :=
    String.ofList_inj.mp ((String.append_right_inj "_").mp h)
  rw [← Nat.ofDigitChars_toDigits (b := 10) (n := i) (by decide) (by decide), hdigits,
    Nat.ofDigitChars_toDigits (by decide) (by decide)]

end Cambra
