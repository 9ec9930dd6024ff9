import Cambra.Scalar.Program

/-!
# Recognising an element-wise chain

`fusePrefix` reads a chain of point-free elements as one scalar program: it follows the value the
chain has computed so far (`Val`) through each element (`Parser.step`), emitting an instruction for
each operation, and keeps the longest prefix that ends at an operation or a product.

`Expr.applyColumn` is what the same elements do unfused, each over a whole column
(`FunctionDef::apply` for a projection or an operation, `MapResultToConst` for a constant, `Zip` for
a product); `applyChain` applies a chain of them one after another.

An element the recogniser has no case for ends the prefix, so nothing is said of what it does
unfused.
-/

namespace Cambra

/-! ## Expressions -/

/-- What a label belongs to, when not the root's namespace. -/
inductive Space where
  | module (path : List String)
  | run (path : List String)
deriving DecidableEq, Repr

/-- A record field label. -/
structure Label where
  name : String
  space : Option Space
deriving DecidableEq, Repr

/-- The label as run time keys records by. -/
def Label.runtimeKey (label : Label) : String :=
  match label.space with
  | some (.module path) => "::".intercalate path ++ "::" ++ label.name
  | some (.run path) => "@" ++ "::".intercalate path ++ "::" ++ label.name
  | none => label.name

/-- The field a projection reads. -/
inductive ProjKey where
  | index (i : ℕ)
  | field (label : Label)
deriving DecidableEq, Repr

/-- The field name at run time. -/
def ProjKey.name : ProjKey → String
  | .index i => tupleField i
  | .field label => label.runtimeKey

/-- The built-in functions the recogniser tells apart. -/
inductive Builtin where
  | id
  | binOp (op : BinOpKind)
  | neg
  | notFn
  | intToUint
  | const
  | zip
  | other
deriving DecidableEq, Repr

/-- The unary operation of a built-in. -/
def Builtin.unaryOp? : Builtin → Option UnaryOpKind
  | .neg => some .neg
  | .notFn => some .not
  | .intToUint => some .intToUint
  | _ => none

/-- The literals. -/
inductive Lit where
  | int (n : I64)
  | string (s : String)
  | bool (b : Bool)
  | unit

/-- The expressions the recogniser tells apart. -/
inductive Expr where
  | compose (elts : List Expr)
  | builtin (b : Builtin)
  | proj (key : ProjKey)
  | apply (argument function : Expr)
  | tuple (elts : List Expr)
  | record (fields : List (Label × Expr))
  | lit (l : Lit)
  | variantCtor (tag : Label) (payload : Expr)
  | other

/-- A literal's value. -/
def Lit.value : Lit → Value
  | .int n => .scalar .int n
  | .string s => .scalar .string s
  | .bool b => .scalar .bool b
  | .unit => .unit

namespace Expr

mutual

/-- The value of a closed expression.  A list is a function value, at which no column is read, and
is refused here with what is no value. -/
def toValue : Expr → Option Value
  | .lit l => some l.value
  | .tuple elts => (toValues elts).map fun values => .record (collect (tupleFields values))
  | .record fields => (toFieldValues fields).map fun values => .record (collect values)
  | .variantCtor tag payload => (toValue payload).map (.union (.name tag.runtimeKey))
  | _ => none

/-- The values of closed expressions. -/
def toValues : List Expr → Option (List Value)
  | [] => some []
  | e :: es => do
    let value ← toValue e
    let values ← toValues es
    some (value :: values)

/-- The values of a closed record's fields. -/
def toFieldValues : List (Label × Expr) → Option (List (String × Value))
  | [] => some []
  | (label, e) :: es => do
    let value ← toValue e
    let values ← toFieldValues es
    some ((label.runtimeKey, value) :: values)

end

/-! ## The unfused chain -/

variable (rt : Runtime)

mutual

/-- What an element does to a column. -/
def applyColumn : Expr → ColumnValue → Option ColumnValue
  | .compose elts, column => applyChain elts column
  | .proj key, .records fields => fields.lookup key.name
  | .builtin .id, column => some column
  | .builtin (.binOp op), .records fields => do
    let left ← fields.lookup (tupleField 0)
    let right ← fields.lookup (tupleField 1)
    applyBinopColumn rt op left right
  | .builtin b, column => do
    let op ← b.unaryOp?
    applyUnaryopColumn rt op column
  -- every row holds the constant
  | .apply argument (.builtin .const), column => do
    let value ← argument.toValue
    let rows ← column.len
    let constant ← ColumnValue.single value
    constant.repeat_ rows
  -- every arm is applied to the same column
  | .apply (.tuple arms) (.builtin .zip), column => do
    let columns ← applyArms arms column
    some (.records (collect (tupleFields columns)))
  | .apply (.record arms) (.builtin .zip), column => do
    let columns ← applyFields arms column
    some (.records (collect columns))
  | _, _ => none

/-- The elements of a chain, one after another. -/
def applyChain : List Expr → ColumnValue → Option ColumnValue
  | [], column => some column
  | e :: es, column => do
    let column ← applyColumn e column
    applyChain es column

/-- The arms of a tuple. -/
def applyArms : List Expr → ColumnValue → Option (List ColumnValue)
  | [], _ => some []
  | e :: es, column => do
    let arm ← applyColumn e column
    let arms ← applyArms es column
    some (arm :: arms)

/-- The arms of a record. -/
def applyFields : List (Label × Expr) → ColumnValue → Option (List (String × ColumnValue))
  | [], _ => some []
  | (label, e) :: es, column => do
    let arm ← applyColumn e column
    let arms ← applyFields es column
    some ((label.runtimeKey, arm) :: arms)

end

end Expr

/-! ## Recognition -/

namespace Extent

/-- The fields of a record extent. -/
def recordFields : Extent → Option (List (String × Extent))
  | .record fields => some fields
  | .restricted inner => inner.recordFields
  | _ => none

/-- Whether a column of the extent has a view. -/
def hasView : Extent → Bool
  | .base b => b ≠ .unit
  | _ => false

mutual

/-- Whether a column of the extent is one a program can read from. -/
def isPlain : Extent → Bool
  | .base _ => true
  | .record fields => arePlain fields
  | _ => false

/-- `isPlain` of every field. -/
def arePlain : List (String × Extent) → Bool
  | [] => true
  | (_, e) :: fields => e.isPlain && arePlain fields

end

end Extent

mutual

/-- The extent of a closed value that a column of it can be read at. -/
def valueExtent : Value → Option Extent
  | .scalar .int _ => some (.base .int)
  | .scalar .uint _ => some (.base .uint)
  | .scalar .string _ => some (.base .string)
  | .scalar .bool _ => some (.base .bool)
  | .record fields => (fieldExtents fields).map fun extents => .record (collect extents)
  | _ => none

/-- The extents of a closed record's fields. -/
def fieldExtents : List (String × Value) → Option (List (String × Extent))
  | [] => some []
  | (name, value) :: fields => do
    let extent ← valueExtent value
    let extents ← fieldExtents fields
    some ((name, extent) :: extents)

end

/-- The extent of a binary operation's results. -/
def binopOutputExtent : BinOpKind → Extent
  | .arithmetic _ => .base .int
  | .compare _ | .boolLogic _ => .base .bool
  | .concat => .base .string

/-- The extent of a unary operation's results. -/
def UnaryOpKind.outputExtent : UnaryOpKind → Extent
  | .neg => .base .int
  | .not => .base .bool
  | .intToUint => .base .uint

/-- A value during recognition. -/
inductive Val where
  /-- The chain's input, or a path into it, not yet read into a slot. -/
  | read (path : List String) (extent : Extent)
  /-- A computed column. -/
  | slot (slot : ℕ) (extent : Extent)
  /-- A closed value, the same at every position. -/
  | const (value : Value) (extent : Extent)
  /-- The arms of a tuple. -/
  | tuple (items : List Val)
  /-- The arms of a record, by name. -/
  | record (arms : List (String × Val))

/-- The state of the recogniser. -/
structure Parser where
  /-- The instructions emitted so far. -/
  instrs : List Instr
  /-- The `input` instruction of each path read so far. -/
  reads : List (List String × ℕ)
  /-- How many operations the chain has read so far. -/
  ops : ℕ

namespace Val

/-- `value` at every position, when it has an extent. -/
def constant (value : Value) : Option Val := (valueExtent value).map (.const value)

/-- The fields of a record, each as the value of that field, in name order. -/
def fieldsOf : Val → Option (List (String × Val))
  | .tuple items => some (collect (tupleFields items))
  | .record arms => some (collect arms)
  | .read path extent => do
    let fields ← extent.recordFields
    some (collect (fields.map fun (name, field) => (name, .read (path ++ [name]) field)))
  | .const (.record values) extent => do
    let extents ← extent.recordFields
    let fields ← values.mapM fun (name, value) => do
      let field ← extents.lookup name
      some (name, Val.const value field)
    some (collect fields)
  | _ => none

/-- Extend an input path. -/
def project (v : Val) (key : ProjKey) : Option Val :=
  match v with
  | .read path extent => do
    let fields ← extent.recordFields
    let field ← fields.lookup key.name
    some (.read (path ++ [key.name]) field)
  | _ => none

end Val

namespace Parser

/-- Append an instruction. -/
def emit (st : Parser) (instr : Instr) : ℕ × Parser :=
  (st.instrs.length, { st with instrs := st.instrs ++ [instr] })

/-- Discard the instructions from `len` on and their cached reads. -/
def truncate (st : Parser) (len : ℕ) : Parser :=
  { st with instrs := st.instrs.take len, reads := st.reads.filter fun r => r.2 < len }

/-- The slot of a scalar, emitting an `input` or `const` instruction where there is none yet. -/
def column (st : Parser) : Val → Option ((ℕ × Extent) × Parser)
  | .slot slot extent => some ((slot, extent), st)
  | .read path extent =>
    if extent.hasView then
      match st.reads.lookup path with
      | some slot => some ((slot, extent), st)
      | none =>
        let (slot, st) := st.emit (.input path)
        some ((slot, extent), { st with reads := (path, slot) :: st.reads })
    else none
  | .const value extent =>
    if extent.hasView then
      let (slot, st) := st.emit (.const value)
      some ((slot, extent), st)
    else none
  | .tuple _ | .record _ => none

/-- `a op b` over the columns of two scalars. -/
def scalarOperation (st : Parser) (op : BinOpKind) (a b : Val) :
    Option ((ℕ × Extent) × Parser) := do
  let ((a, _), st) ← st.column a
  let ((b, _), st) ← st.column b
  let (slot, st) := st.emit (.bin op a b)
  some ((slot, binopOutputExtent op), st)

/-- How the comparisons of two records' fields are joined; `none` for an operation that does not
take records apart. -/
def joinOf : BinOpKind → Option BinOpKind
  | .compare .equals => some (.boolLogic .and)
  | .compare .notEquals => some (.boolLogic .or)
  | _ => none

/-- `a op b`.  Two records compare field by field, over the fields both have. -/
def operation (st : Parser) (op : BinOpKind) (a b : Val) : Option ((ℕ × Extent) × Parser) :=
  match joinOf op with
  | none => st.scalarOperation op a b
  | some join =>
    match a.fieldsOf, b.fieldsOf with
    | none, none => st.scalarOperation op a b
    | some left, some right => do
      let (joined, st) ← (comparedFields left right).foldlM (fun (joined, st) (_, l, r) => do
        let ((slot, _), st) ← st |>.operation op l r
        match joined with
        | none => some (some slot, st)
        | some prev =>
          let (slot, st) := st.emit (.bin join prev slot)
          some (some slot, st)) ((none : Option ℕ), st)
      let slot ← joined
      some ((slot, binopOutputExtent join), st)
    | _, _ => none
partial_fixpoint

/-- A value as a column of the result.  A record is built of its fields' columns. -/
def output (st : Parser) (v : Val) : Option ((ℕ × Extent) × Parser) :=
  match v.fieldsOf with
  | none => st.column v
  | some [] => none
  | some fields => do
    let (named, extents, st) ← fields.foldlM (fun (named, extents, st) (name, field) => do
      let ((slot, extent), st) ← st |>.output field
      some (named ++ [(name, slot)], insertEntry name extent extents, st))
      (([] : List (String × ℕ)), ([] : List (String × Extent)), st)
    let (slot, st) := st.emit (.record named)
    some ((slot, .record extents), st)
partial_fixpoint

/-- The final instruction and its extent, for a value that can be a result. -/
def rootOf (st : Parser) (v : Val) : Option ((ℕ × Extent) × Parser) :=
  match v with
  | .slot slot extent => some ((slot, extent), st)
  | .tuple _ | .record _ => st.output v
  | .read _ _ | .const _ _ => none

/-- How many operations an element counts as. -/
def opsOf : Expr → ℕ
  | .compose _ | .builtin .id => 0
  | .apply _ (.builtin .zip) => 2
  | _ => 1

/-- The state with an element counted. -/
def count (st : Parser) (e : Expr) : Parser := { st with ops := st.ops + opsOf e }

mutual

/-- Read an element as a function applied to `cur`. -/
def step (st : Parser) : Expr → Val → Option (Val × Parser)
  | .compose elts, cur => steps (st.count (.compose elts)) elts cur
  | .builtin .id, cur => some (cur, st.count (.builtin .id))
  | .proj key, cur => (cur.project key).map fun v => (v, st.count (.proj key))
  | .builtin (.binOp op), .tuple [a, b] => do
    let ((slot, extent), st) ← (st.count (.builtin (.binOp op))).operation op a b
    some (.slot slot extent, st)
  | .builtin b, cur => do
    let op ← b.unaryOp?
    let ((a, _), st) ← (st.count (.builtin b)).column cur
    let (slot, st) := st.emit (.un op a)
    some (.slot slot op.outputExtent, st)
  | .apply argument (.builtin .const), _ => do
    let value ← argument.toValue
    let v ← Val.constant value
    some (v, st.count (.apply argument (.builtin .const)))
  | .apply (.tuple arms) (.builtin .zip), cur => do
    let (items, st) ← stepArms (st.count (.apply (.tuple arms) (.builtin .zip))) arms cur
    some (.tuple items, st)
  | .apply (.record arms) (.builtin .zip), cur => do
    let (items, st) ← stepFields (st.count (.apply (.record arms) (.builtin .zip))) arms cur
    some (.record items, st)
  | _, _ => none

/-- The elements of a composition, one after another. -/
def steps (st : Parser) : List Expr → Val → Option (Val × Parser)
  | [], cur => some (cur, st)
  | e :: es, cur => do
    let (cur, st) ← step st e cur
    steps st es cur

/-- The arms of a tuple, each applied to `cur`. -/
def stepArms (st : Parser) : List Expr → Val → Option (List Val × Parser)
  | [], _ => some ([], st)
  | e :: es, cur => do
    let (item, st) ← step st e cur
    let (items, st) ← stepArms st es cur
    some (item :: items, st)

/-- The arms of a record, each applied to `cur`. -/
def stepFields (st : Parser) : List (Label × Expr) → Val → Option (List (String × Val) × Parser)
  | [], _ => some ([], st)
  | (label, e) :: es, cur => do
    let (item, st) ← step st e cur
    let (items, st) ← stepFields st es cur
    some ((label.runtimeKey, item) :: items, st)

end

/-- A prefix that can be taken: how many elements it consumes, how many instructions it holds before
its output reads the fields of a product, and the value it ends at. -/
structure Candidate where
  consumed : ℕ
  len : ℕ
  root : Val

/-- The elements from the `k`-th on.  A failed element only appends instructions, which the caller
truncates, so the state before it is returned. -/
def scan (st : Parser) (cur : Val) (best : Option Candidate) : ℕ → List Expr →
    Parser × Option Candidate
  | _, [] => (st, best)
  | k, e :: es =>
    match st.step e cur with
    | none => (st, best)
    | some (cur, st) =>
      if st.ops ≥ 2 then
        -- probing an output emits instructions that later elements must not read
        let len := st.instrs.length
        match st.rootOf cur with
        | some (_, probed) => scan (probed.truncate len) cur (some ⟨k + 1, len, cur⟩) (k + 1) es
        | none => scan st cur best (k + 1) es
      else scan st cur best (k + 1) es

end Parser

/-- A fused chain: the program, the extents it is applied between, and how many elements of the
chain it replaces. -/
structure Fused where
  program : ScalarProgram
  domain : Extent
  codomain : Extent
  consumed : ℕ

/-- The longest prefix of a chain the recogniser takes. -/
def fusePrefix (chain : List Expr) (input : Extent) : Option Fused := do
  guard input.isPlain
  let (st, best) := Parser.scan ⟨[], [], 0⟩ (.read [] input) none 0 chain
  let best ← best
  let ((_, codomain), st) ← (st.truncate best.len).rootOf best.root
  some ⟨⟨st.instrs⟩, input, codomain, best.consumed⟩

end Cambra
