import Cambra.Lib.Assoc
import Cambra.Tiling.Value

/-!
# Columns and the element-wise kernels

A column holds one value per row.  `ColumnValue` keeps the source's cases that hold values of a
plain extent (a base type, or a record of them); its four columns of an ordered base type are
grouped by `ScalarType`, as the values are.  A function binding, a tagged union and a column of
mixed values hold no value of a plain extent, and are left out.

A kernel reads its operands through views (`ColumnView`), which hold stored values or one value
repeated, and appends its result to a column of the result's type.  A panic is `none`: a kernel
panics on operands or a result column of a type it has no case for, on an arithmetic error, and,
where the build checks for it (`Profile`), on overflow.

`applyBinopColumn` and `applyUnaryopColumn` are the kernels over whole columns, as an operator
that is not fused applies them.
-/

namespace Cambra

/-- The build: whether `+`, `-`, `*` and negation panic on overflow or wrap around. -/
inductive Profile where
  | debug
  | release
deriving DecidableEq, Repr

/-! ## Machine integers -/

/-- The integers of one machine type, as the arithmetic kernels use them. -/
class MachineInt (α : Type) where
  /-- The integer a machine value stands for. -/
  toInt : α → ℤ
  /-- The machine value that stands for an integer, if there is one. -/
  ofInt? : ℤ → Option α
  /-- The machine value that stands for an integer, after wrapping around. -/
  wrapping : ℤ → α

/-- The signed integers. -/
instance : MachineInt I64 where
  toInt := Subtype.val
  ofInt? i := if h : -2 ^ 63 ≤ i ∧ i < 2 ^ 63 then some ⟨i, h⟩ else none
  wrapping i := ⟨i.bmod (2 ^ 64), by
    have := Int.le_bmod (x := i) (m := 2 ^ 64) (by decide)
    have := Int.bmod_lt (x := i) (m := 2 ^ 64) (by decide)
    omega⟩

/-- The unsigned integers. -/
instance : MachineInt U64 where
  toInt u := u.val
  ofInt? i := if h : 0 ≤ i ∧ i < 2 ^ 64 then some ⟨i.toNat, by omega⟩ else none
  wrapping i := ⟨(i % 2 ^ 64).toNat, by omega⟩

namespace MachineInt

variable {α : Type} [MachineInt α]

/-- A plain operator's result: the machine value, or what the build does on overflow. -/
def overflowing (p : Profile) (i : ℤ) : Option α :=
  match p with
  | .debug => ofInt? i
  | .release => some (wrapping i)

/-- Division rounding toward negative infinity.  It panics on a zero divisor and, in every build,
on a quotient no machine value stands for. -/
def floorDiv (a b : α) : Option α :=
  let (a, b) := (toInt a, toInt b)
  if b = 0 then none
  else if a.tmod b ≠ 0 && (decide (a < 0) != decide (b < 0)) then ofInt? (a.tdiv b - 1)
  else ofInt? (a.tdiv b)

/-- `acc` times `base` raised to `exponent`, by squaring and wrapping. -/
def raised (base : α) (exponent : ℕ) (acc : α) : α :=
  if h : exponent = 0 then acc
  else
    let acc := if exponent % 2 = 1 then wrapping (toInt acc * toInt base) else acc
    raised (wrapping (toInt base * toInt base)) (exponent / 2) acc
termination_by exponent
decreasing_by omega

/-- Exponentiation; a negative exponent panics. -/
def intPow (a b : α) : Option α :=
  if toInt b < 0 then none else some (raised a (toInt b).toNat (wrapping 1))

end MachineInt

/-! ## Operations -/

/-- The arithmetic operations. -/
inductive ArithmeticKind where
  | add
  | sub
  | mul
  | floorDiv
  | pow
deriving DecidableEq, Repr

/-- The comparisons. -/
inductive CompareKind where
  | equals
  | notEquals
  | less
  | lessOrEq
  | greater
  | greaterOrEq
deriving DecidableEq, Repr

/-- The Boolean operations. -/
inductive LogicKind where
  | and
  | nand
  | or
  | nor
  | xor
  | xnor
deriving DecidableEq, Repr

/-- The binary operations. -/
inductive BinOpKind where
  | arithmetic (op : ArithmeticKind)
  | boolLogic (op : LogicKind)
  | concat
  | compare (op : CompareKind)
deriving DecidableEq, Repr

/-- The unary operations. -/
inductive UnaryOpKind where
  | neg
  | not
  | intToUint
deriving DecidableEq, Repr

/-- An arithmetic operation on two elements (`zip_arithmetic`). -/
def ArithmeticKind.apply {α : Type} [MachineInt α] (p : Profile) (op : ArithmeticKind) (a b : α) :
    Option α :=
  match op with
  | .add => MachineInt.overflowing p (MachineInt.toInt a + MachineInt.toInt b)
  | .sub => MachineInt.overflowing p (MachineInt.toInt a - MachineInt.toInt b)
  | .mul => MachineInt.overflowing p (MachineInt.toInt a * MachineInt.toInt b)
  | .floorDiv => MachineInt.floorDiv a b
  | .pow => MachineInt.intPow a b

/-- A comparison of two elements (`zip_compare`). -/
def CompareKind.apply {α : Type} [LinearOrder α] (op : CompareKind) (a b : α) : Bool :=
  match op with
  | .equals => a == b
  | .notEquals => a != b
  | .less => a < b
  | .lessOrEq => a ≤ b
  | .greater => a > b
  | .greaterOrEq => a ≥ b

/-- A comparison of two Booleans, `false` before `true` (`zip_bool_compare`). -/
def CompareKind.applyBool (op : CompareKind) (a b : Bool) : Bool :=
  match op with
  | .equals => a == b
  | .notEquals => a != b
  | .less => !a && b
  | .lessOrEq => a ≤ b
  | .greater => a && !b
  | .greaterOrEq => a ≥ b

/-- A Boolean operation on two elements (`zip_bool_logic`). -/
def LogicKind.apply (op : LogicKind) (a b : Bool) : Bool :=
  match op with
  | .and => a && b
  | .nand => !(a && b)
  | .or => a || b
  | .nor => !(a || b)
  | .xor => a ^^ b
  | .xnor => a == b

/-- The function of a binary operation on the elements of a type, with the type of its results: the
cases `apply_binop_views` has. -/
def BinOpKind.kernel (p : Profile) : BinOpKind → (τ : ScalarType) →
    Option ((ρ : ScalarType) × (τ.Val → τ.Val → Option ρ.Val))
  | .arithmetic op, .int => some ⟨.int, op.apply (α := I64) p⟩
  | .arithmetic op, .uint => some ⟨.uint, op.apply (α := U64) p⟩
  | .boolLogic op, .bool => some ⟨.bool, fun a b => some (op.apply a b)⟩
  | .concat, .string => some ⟨.string, fun (a b : String) => some (a ++ b)⟩
  | .compare op, .string => some ⟨.bool, fun (a b : String) => some (op.apply a b)⟩
  | .compare op, .int => some ⟨.bool, fun (a b : I64) => some (op.apply a b)⟩
  | .compare op, .uint => some ⟨.bool, fun (a b : U64) => some (op.apply a b)⟩
  | .compare op, .bool => some ⟨.bool, fun a b => some (op.applyBool a b)⟩
  | _, _ => none

/-- The function of a unary operation on the elements of a type, with the type of its results: the
cases `apply_unaryop_views` has. -/
def UnaryOpKind.kernel (p : Profile) : UnaryOpKind → (τ : ScalarType) →
    Option ((ρ : ScalarType) × (τ.Val → Option ρ.Val))
  | .neg, .int => some ⟨.int, fun (a : I64) => MachineInt.overflowing p (-MachineInt.toInt a)⟩
  | .not, .bool => some ⟨.bool, fun (a : Bool) => some !a⟩
  | .intToUint, .int => some ⟨.uint, fun (a : I64) => MachineInt.ofInt? (MachineInt.toInt a)⟩
  | _, _ => none

/-! ## Views -/

/-- A borrowed region of a column: stored values, or one value repeated. -/
inductive View (α : Type) where
  | slice (values : List α)
  | constant (value : α) (len : ℕ)

namespace View

variable {α β : Type}

/-- The number of values. -/
def len : View α → ℕ
  | .slice values => values.length
  | .constant _ len => len

/-- The values in a range, which must lie in the view. -/
def range (start stop : ℕ) : View α → Option (View α)
  | .slice values =>
    if start ≤ stop ∧ stop ≤ values.length then
      some (.slice ((values.drop start).take (stop - start)))
    else none
  | .constant value len => if stop ≤ len then some (.constant value (stop - start)) else none

/-- The values as a list. -/
def values : View α → List α
  | .slice values => values
  | .constant value len => List.replicate len value

/-- `f` over two views of one length.  Two constants take one call of `f`, or none at length 0. -/
def zipWith (f : α → α → Option β) : View α → View α → Option (List β)
  | .slice l, .slice r => (l.zip r).mapM fun (a, b) => f a b
  | .slice l, .constant b _ => l.mapM fun a => f a b
  | .constant a _, .slice r => r.mapM fun b => f a b
  | .constant a len, .constant b _ =>
    if len > 0 then (f a b).map (List.replicate len) else some []

/-- `f` over a view.  A constant takes one call of `f`, or none at length 0. -/
def map (f : α → Option β) : View α → Option (List β)
  | .slice values => values.mapM f
  | .constant value len => if len > 0 then (f value).map (List.replicate len) else some []

end View

/-- A view of a column of an ordered base type. -/
structure ColumnView where
  type : ScalarType
  view : View type.Val

namespace ColumnView

/-- The number of values. -/
def len (v : ColumnView) : ℕ := v.view.len

/-- The values in a range. -/
def range (v : ColumnView) (start stop : ℕ) : Option ColumnView :=
  (v.view.range start stop).map (⟨v.type, ·⟩)

end ColumnView

/-! ## Columns -/

/-- A column of values.  A record's fields stand in the order of their names. -/
inductive ColumnValue where
  | units (len : ℕ)
  /-- `Ints`, `UInts`, `Strings` or `Bools`. -/
  | base (type : ScalarType) (values : List type.Val)
  | records (fields : List (String × ColumnValue))

namespace ColumnValue

/-- Borrow a column of an ordered base type. -/
def view : ColumnValue → Option ColumnView
  | .base τ values => some ⟨τ, .slice values⟩
  | _ => none

/-- The number of rows: a record column's is its first field's, and one with no field has none. -/
def len : ColumnValue → Option ℕ
  | .units n => some n
  | .base _ values => some values.length
  | .records [] => none
  | .records ((_, column) :: _) => column.len

mutual

/-- A function of the values of each column inside, and of the number of units. -/
def mapLeaves (f : (τ : ScalarType) → List τ.Val → List τ.Val) (g : ℕ → ℕ) :
    ColumnValue → ColumnValue
  | .units n => .units (g n)
  | .base τ values => .base τ (f τ values)
  | .records fields => .records (mapFields f g fields)

/-- `mapLeaves` at each field. -/
def mapFields (f : (τ : ScalarType) → List τ.Val → List τ.Val) (g : ℕ → ℕ) :
    List (String × ColumnValue) → List (String × ColumnValue)
  | [] => []
  | (name, column) :: fields => (name, column.mapLeaves f g) :: mapFields f g fields

end

/-- The column of the same shape with no rows. -/
def emptyLike : ColumnValue → ColumnValue := mapLeaves (fun _ _ => []) (fun _ => 0)

/-- Remove every row. -/
def clear : ColumnValue → ColumnValue := emptyLike

mutual

/-- A column of one row. -/
def single : Value → Option ColumnValue
  | .unit => some (.units 1)
  | .scalar τ v => some (.base τ [v])
  | .record fields => (singleFields fields).map fun columns => .records (collect columns)
  -- a tagged value is a column of mixed values
  | .union _ _ => none

/-- The column of one row of each field. -/
def singleFields : List (String × Value) → Option (List (String × ColumnValue))
  | [] => some []
  | (name, value) :: fields => do
    let column ← single value
    let columns ← singleFields fields
    some ((name, column) :: columns)

end

mutual

/-- A column of one row, repeated. -/
def repeat_ (n : ℕ) : ColumnValue → Option ColumnValue
  | .units m => if m = 1 then some (.units n) else none
  | .base τ values =>
    match values with
    | [v] => some (.base τ (List.replicate n v))
    | _ => none
  | .records fields => do
    guard ((ColumnValue.records fields).len = some 1)
    let columns ← repeatFields n fields
    some (.records columns)

/-- `repeat_` at each field. -/
def repeatFields (n : ℕ) : List (String × ColumnValue) → Option (List (String × ColumnValue))
  | [] => some []
  | (name, column) :: fields => do
    let column ← column.repeat_ n
    let columns ← repeatFields n fields
    some ((name, column) :: columns)

end

/-- Append the values of a view of the column's element type. -/
def extendFromView (column : ColumnValue) (view : ColumnView) : Option ColumnValue :=
  match column with
  | .base τ values =>
    if h : view.type = τ then some (.base τ (values ++ h ▸ view.view.values)) else none
  | _ => none

end ColumnValue

/-! ## The kernels over columns -/

/-- What the kernels take from elsewhere: what the build does on overflow, and how two record
columns are ordered (`order_rows`), which no fused program asks for. -/
structure Runtime where
  profile : Profile
  orderRows : CompareKind → ColumnValue → ColumnValue → Option (List Bool)

variable (rt : Runtime)

/-- The empty column that holds the results of a unary operation. -/
def unaryopResultColumn (op : UnaryOpKind) (operand : ColumnView) : ColumnValue :=
  match op with
  | .neg | .not => .base operand.type []
  | .intToUint => .base .uint []

/-- Apply a unary operation to a view, appending the results to `out`. -/
def applyUnaryopViews (op : UnaryOpKind) (operand : ColumnView) (out : ColumnValue) :
    Option ColumnValue := do
  let ⟨ρ, f⟩ ← op.kernel rt.profile operand.type
  let results ← operand.view.map f
  out.extendFromView ⟨ρ, .slice results⟩

/-- Apply a unary operation to a column. -/
def applyUnaryopColumn (op : UnaryOpKind) (operand : ColumnValue) : Option ColumnValue := do
  let view ← operand.view
  applyUnaryopViews rt op view (unaryopResultColumn op view)

/-- The empty column that holds the results of a binary operation. -/
def binopResultColumn (op : BinOpKind) (left : ColumnView) : ColumnValue :=
  match op with
  | .arithmetic _ => .base left.type []
  | .concat => .base .string []
  | .boolLogic _ | .compare _ => .base .bool []

/-- The same, over a column of a base type or a record column. -/
def binopResultColumnOf (op : BinOpKind) (left : ColumnValue) : ColumnValue :=
  match left.view with
  | some view => binopResultColumn op view
  -- only the comparison of two products reads a column that is not of a base type
  | none => .base .bool []

/-- Apply a binary operation to the common length of two views, appending the results to `out`. -/
def applyBinopViews (op : BinOpKind) (left right : ColumnView) (out : ColumnValue) :
    Option ColumnValue := do
  let rows := min left.len right.len
  let left ← left.range 0 rows
  let right ← right.range 0 rows
  if h : right.type = left.type then
    let ⟨ρ, f⟩ ← op.kernel rt.profile left.type
    let results ← left.view.zipWith f (h ▸ right.view)
    out.extendFromView ⟨ρ, .slice results⟩
  else none

/-- The fields both of two products carry, each with the two sides' values. -/
def comparedFields {α β : Type} (left : List (String × α)) (right : List (String × β)) :
    List (String × α × β) :=
  left.filterMap fun (name, l) => (right.lookup name).map fun r => (name, l, r)

/-- How many rows a comparison of two record columns starts from: the fewest of a compared field. -/
def comparedRows (left right : List (String × ColumnValue)) : Option ℕ := do
  let lens ← (comparedFields left right).mapM fun (_, l, r) => do
    let l ← l.len
    let r ← r.len
    some (min l r)
  some (lens.min?.getD 0)

/-- The answers so far joined with one field's, over the rows both have. -/
def joinAnswers (op : CompareKind) (acc fieldEq : List Bool) : List Bool :=
  match op with
  | .equals => acc.zipWith (· && ·) fieldEq
  | _ => acc.zipWith (· || ·) fieldEq

mutual

/-- Apply a binary operation to two columns, appending the results to `out`. -/
def applyBinopInto (op : BinOpKind) : (left right out : ColumnValue) → Option ColumnValue
  | .records l, .records r, .base .bool o =>
    match op with
    -- a product compares componentwise
    | .compare .equals => do
      let rows ← comparedRows l r
      let answers ← compareFields .equals l r (List.replicate rows true)
      some (.base .bool (o ++ answers))
    | .compare .notEquals => do
      let rows ← comparedRows l r
      let answers ← compareFields .notEquals l r (List.replicate rows false)
      some (.base .bool (o ++ answers))
    | .compare op => do
      let answers ← rt.orderRows op (.records l) (.records r)
      some (.base .bool (o ++ answers))
    | _ => none
  | left, right, out => do
    let l ← left.view
    let r ← right.view
    applyBinopViews rt op l r out

/-- Compare two record columns field by field, joining the answers. -/
def compareFields (op : CompareKind) : (left right : List (String × ColumnValue)) →
    (acc : List Bool) → Option (List Bool)
  | [], _, acc => some acc
  | (name, l) :: left, right, acc =>
    match right.lookup name with
    | none => compareFields op left right acc
    | some r => do
      match ← applyBinopInto (.compare op) l r (.base .bool []) with
      | .base .bool fieldEq => compareFields op left right (joinAnswers op acc fieldEq)
      | _ => none

end

/-- Apply a binary operation to two columns. -/
def applyBinopColumn (op : BinOpKind) (left right : ColumnValue) : Option ColumnValue :=
  applyBinopInto rt op left right (binopResultColumnOf op left)

end Cambra
