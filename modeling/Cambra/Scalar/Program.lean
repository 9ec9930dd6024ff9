import Cambra.Lib.OptionSpec
import Cambra.Scalar.Column

/-!
# Scalar programs

A scalar program is a straight-line list of instructions; an instruction's index is the slot it
writes, and the last instruction is the result.  `ScalarProgram.eval` runs it over a column in
blocks of rows: the operations write their block into scratch columns that are reused from one
block to the next, inputs and constants are read through views, and the last instruction appends
its block to the result, a column `emptyOutput` has prepared without evaluating anything.

A panic is `none`.  Slots are natural numbers; the source's are 32-bit, which a program of fewer
than `2 ^ 32` instructions does not tell apart.
-/

namespace Cambra

/-- One instruction. -/
inductive Instr where
  /-- The column of a base type at a path inside the input. -/
  | input (path : List String)
  /-- One value of a base type at every row. -/
  | const (value : Value)
  | bin (op : BinOpKind) (left right : ℕ)
  | un (op : UnaryOpKind) (operand : ℕ)
  /-- A column of records, one field per slot named, in the order of the names. -/
  | record (fields : List (String × ℕ))

/-- Whether the instruction writes a scratch column. -/
def Instr.isOperation : Instr → Bool
  | .bin _ _ _ | .un _ _ => true
  | _ => false

/-- A straight-line program whose operands refer to earlier instruction slots. -/
structure ScalarProgram where
  instrs : List Instr

/-- Rows per block. -/
def blockRows : ℕ := 1024

/-- The column of `input` that `path` reads. -/
def field (input : ColumnValue) (path : List String) : Option ColumnValue :=
  path.foldlM (fun column name =>
    match column with
    | .records fields => fields.lookup name
    | _ => none) input

/-- The values of a closed scalar, repeated over `len` rows. -/
def constView (value : Value) (len : ℕ) : Option ColumnView :=
  match value with
  | .scalar τ v => some ⟨τ, .constant v len⟩
  | _ => none

/-- The buffers of one evaluation, reused across blocks. -/
structure Scratch where
  input : ColumnValue
  /-- One column per slot; `units 0` marks an unwritten one. -/
  slots : List ColumnValue
  /-- The current block: the rows from `start`, `len` of them. -/
  start : ℕ
  len : ℕ

namespace Scratch

variable (rt : Runtime)

/-- No slot written. -/
def new (input : ColumnValue) (program : ScalarProgram) : Scratch :=
  ⟨input, List.replicate program.instrs.length (.units 0), 0, 0⟩

/-- The block of an instruction as a view. -/
def view (s : Scratch) (program : ScalarProgram) (slot : ℕ) : Option ColumnView := do
  match ← program.instrs[slot]? with
  | .input path =>
    let column ← field s.input path
    let view ← column.view
    view.range s.start (s.start + s.len)
  | .const value => constView value s.len
  | .bin _ _ _ | .un _ _ =>
    let column ← s.slots[slot]?
    column.view
  | .record _ => none

/-- Append the current block of an operation or a record to `out`, which has its type.  A record
inside a record has no scratch column and is built in place. -/
def run (s : Scratch) (program : ScalarProgram) (slot : ℕ) (out : ColumnValue) :
    Option ColumnValue := do
  match ← program.instrs[slot]? with
  | .un op a =>
    let a ← s.view program a
    applyUnaryopViews rt op a out
  | .bin op a b =>
    let a ← s.view program a
    let b ← s.view program b
    applyBinopViews rt op a b out
  | .record fields =>
    match out with
    | .records columns =>
      let columns ← fields.foldlM (fun columns (name, field) => do
        let column ← columns.lookup name
        let column ← (do
          match ← program.instrs[field]? with
          | .record _ => s |>.run program field column
          | _ => (s.view program field).bind column.extendFromView)
        some (insertEntry name column columns)) columns
      some (.records columns)
    | _ => none
  | .input _ | .const _ => none
partial_fixpoint

/-- The column an operation writes its block into, taken out of its slot: the slot's buffer,
cleared, or on the first block a new empty column of the operation's result type. -/
def slotColumn (s : Scratch) (program : ScalarProgram) (slot : ℕ) (instr : Instr) :
    Option (Scratch × ColumnValue) := do
  let column ← s.slots[slot]?
  let s := { s with slots := s.slots.set slot (.units 0) }
  match column, instr with
  | .units _, .un op a =>
    let a ← s.view program a
    some (s, unaryopResultColumn op a)
  | .units _, .bin op a _ =>
    let a ← s.view program a
    some (s, binopResultColumn op a)
  | .units _, _ => none
  | column, _ => some (s, column.clear)

/-- Evaluate an operation into its scratch column.  Other instructions have none. -/
def runIntoSlot (s : Scratch) (program : ScalarProgram) (slot : ℕ) : Option Scratch := do
  let instr ← program.instrs[slot]?
  if instr.isOperation then
    let (s, column) ← s.slotColumn program slot instr
    let column ← s.run rt program slot column
    some { s with slots := s.slots.set slot column }
  else some s

/-- Append the result of the rows from `start` to `out`.  No instruction reads the last slot, so its
result is appended without a scratch column. -/
def block (s : Scratch) (program : ScalarProgram) (start len : ℕ) (out : ColumnValue) :
    Option (Scratch × ColumnValue) := do
  let s := { s with start := start, len := len }
  let last := program.instrs.length - 1
  let s ← (List.range last).foldlM (fun s slot => s.runIntoSlot rt program slot) s
  let out ← s.run rt program last out
  some (s, out)

end Scratch

namespace ScalarProgram

variable (rt : Runtime)

/-- The empty column of an instruction's type, given those of the instructions before it. -/
def emptyColumn (input : ColumnValue) (empties : List ColumnValue) : Instr → Option ColumnValue
  | .input path => (field input path).map ColumnValue.emptyLike
  | .const value => (ColumnValue.single value).map ColumnValue.emptyLike
  -- the operand's type, which `neg` and `not` keep
  | .un _ a => empties[a]?
  | .bin op a _ => do
    let operand ← empties[a]?
    let view ← operand.view
    some (binopResultColumn op view)
  | .record fields => do
    let columns ← fields.mapM fun (name, field) => do
      let column ← empties[field]?
      some (name, column)
    some (.records (collect columns))

/-- The empty columns of a program's instructions. -/
def empties (program : ScalarProgram) (input : ColumnValue) : Option (List ColumnValue) :=
  pushEach (emptyColumn input) program.instrs

/-- The empty column the result is appended to: a column of the last instruction's type. -/
def emptyOutput (program : ScalarProgram) (input : ColumnValue) : Option ColumnValue := do
  let empties ← program.empties input
  empties.getLast?

/-- The blocks from `start` on. -/
def blocks (program : ScalarProgram) (len start : ℕ) (s : Scratch) (out : ColumnValue) :
    Option ColumnValue := do
  let rows := min blockRows (len - start)
  let (s, out) ← s.block rt program start rows out
  if start + rows ≥ len then some out
  else blocks program len (start + rows) s out
termination_by len - start
decreasing_by
  have : 0 < blockRows := by decide
  omega

/-- One result row per input row, evaluated block by block. -/
def eval (program : ScalarProgram) (input : ColumnValue) : Option ColumnValue := do
  let len ← input.len
  let out ← program.emptyOutput input
  let out ← program.blocks rt len 0 (Scratch.new input program) out
  -- a debug build asserts one result row per input row
  guard (out.len = some len)
  some out

end ScalarProgram

end Cambra
