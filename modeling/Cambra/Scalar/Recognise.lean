import Cambra.Scalar.Blocks
import Cambra.Scalar.Fuse

/-!
# What the recogniser's values stand for

The recogniser follows a chain with a symbolic value; the unfused chain computes a column.
`Val.Is` says what column a symbolic value stands for, over the columns that the instructions
emitted so far compute, and the lemmas here take it through the recogniser's operations: reading a
scalar into a slot (`Parser.column_spec`), an operation (`Parser.operation_spec`), and building a
result (`Parser.output_spec`).  Each says that where the unfused operation returns a column, the
instructions emitted compute it.

`Made` records one thing more about a value, which the column does not show: whether it is made by
converting an `Int` to a `UInt`.  The prepared result column of such a value is an `Int` column.
-/

namespace Cambra

open List
open Option hiding any_map map_map

/-! ## Conversions -/

/-- Whether a value is the result of a conversion to `UInt`, by field. -/
inductive Made where
  /-- Nothing here is the result of a conversion. -/
  | plain
  | converted
  | product (fields : List (String × Made))

namespace Made

mutual

/-- Whether anything here is the result of a conversion. -/
def converts : Made → Bool
  | .plain => false
  | .converted => true
  | .product fields => anyConverts fields

/-- `converts` of some field. -/
def anyConverts : List (String × Made) → Bool
  | [] => false
  | (_, m) :: fields => m.converts || anyConverts fields

end

/-- A field. -/
def field (m : Made) (name : String) : Made :=
  match m with
  | .product fields => (fields.lookup name).getD .plain
  | _ => .plain

lemma anyConverts_eq (fields : List (String × Made)) :
    anyConverts fields = fields.any fun f => f.2.converts := by
  induction fields with
  | nil => rfl
  | cons f fields ih => rw [anyConverts, ih, any_cons]

end Made

namespace Expr

mutual

/-- What an element makes of a value: `int_to_uint` converts, an arithmetic operation keeps what its
left operand is, and any other operation gives a value that is no conversion. -/
def made : Expr → Made → Made
  | .compose elts, m => madeChain elts m
  | .builtin .id, m => m
  | .proj key, m => m.field key.name
  | .builtin (.binOp (.arithmetic _)), m => m.field (tupleField 0)
  | .builtin .intToUint, _ => .converted
  | .apply (.tuple arms) (.builtin .zip), m => .product (collect (tupleFields (madeArms arms m)))
  | .apply (.record arms) (.builtin .zip), m => .product (collect (madeFields arms m))
  | _, _ => .plain

/-- What a chain makes of a value. -/
def madeChain : List Expr → Made → Made
  | [], m => m
  | e :: es, m => madeChain es (made e m)

/-- What the arms of a tuple make of a value. -/
def madeArms : List Expr → Made → List Made
  | [], _ => []
  | e :: es, m => made e m :: madeArms es m

/-- What the arms of a record make of a value. -/
def madeFields : List (Label × Expr) → Made → List (String × Made)
  | [], _ => []
  | (label, e) :: es, m => (label.runtimeKey, made e m) :: madeFields es m

end

end Expr

/-! ## Columns of an extent -/

/-- A column of `n` rows whose values are of a plain extent.  A record column with no field has no
number of rows, so it is none. -/
inductive ColumnValue.OfExtent (n : ℕ) : Extent → ColumnValue → Prop
  | unit : OfExtent n (.base .unit) (.units n)
  | base {b : BaseType} {τ : ScalarType} (h : (Extent.base b).scalarType = some τ)
      {values : List τ.Val} (hlen : values.length = n) : OfExtent n (.base b) (.base τ values)
  | record {es : List (String × Extent)} {fields : List (String × ColumnValue)}
      (hne : fields ≠ []) (hasc : KeysAscend es) (hkeys : es.map (·.1) = fields.map (·.1))
      (h : ∀ (i : ℕ) (e : String × Extent) (c : String × ColumnValue), es[i]? = some e →
        fields[i]? = some c → OfExtent n e.2 c.2) : OfExtent n (.record es) (.records fields)

variable {es : List (String × Extent)} {α : Type} {n : ℕ} {c : ColumnValue} {extent : Extent}

namespace ColumnValue.OfExtent

lemma hasRows (h : c.OfExtent n extent) : c.HasRows n := by
  induction h with
  | unit => exact .units
  | base _ hlen => exact .base hlen
  | record _ _ hkeys _ ih =>
    refine .records fun c hc => ?_
    obtain ⟨e, -, -, hec⟩ := exists_of_forall₂_mem_right
      (forall₂_sameKey (R := fun _ c => HasRows n c) hkeys ih) hc
    exact hec

lemma len_eq (h : c.OfExtent n extent) : c.len = some n := by
  induction h with
  | unit => rfl
  | base _ hlen => exact congrArg some hlen
  | @record es fields hne _ hkeys _ ih =>
    cases fields with
    | nil => exact absurd rfl hne
    | cons f fields =>
      cases es with
      | nil => cases hkeys
      | cons e es =>
        rw [len]
        exact ih 0 e f rfl rfl

/-- A column of an extent with a view is of a base type. -/
lemma isSome_view (h : c.OfExtent n extent) (hview : extent.hasView = true) : c.view.isSome := by
  cases h with
  | unit => cases hview
  | base => rfl
  | record => cases hview

/-- A column of a record extent is a record column of the fields' extents. -/
lemma exists_fields (h : c.OfExtent n extent) (hes : extent.recordFields = some es) :
    KeysAscend es ∧ ∃ fields, c = .records fields ∧
      List.Forall₂ (SameKey fun e c => OfExtent n e c) es fields := by
  cases h with
  | unit | base => cases hes
  | record _ hasc hkeys h =>
    cases hes
    exact ⟨hasc, _, rfl, forall₂_sameKey hkeys h⟩

end ColumnValue.OfExtent

/-! ## Closed values -/

/-- A value whose records list their fields in the order of the names, each once. -/
inductive Value.Ascends : Value → Prop
  | scalar {τ : ScalarType} {v : τ.Val} : Ascends (.scalar τ v)
  | unit : Ascends .unit
  | record {fields : List (String × Value)} (hasc : KeysAscend fields)
      (h : ∀ f ∈ fields, Ascends f.2) : Ascends (.record fields)
  | union {tag : FieldKey} {inner : Value} (h : Ascends inner) : Ascends (.union tag inner)

lemma mem_tupleFields {items : List α} {e : String × α} (h : e ∈ tupleFields items) :
    e.2 ∈ items := by
  obtain ⟨x, hx, rfl⟩ := mem_map.mp h
  obtain ⟨i, hi⟩ := mem_iff_getElem?.mp hx
  exact mem_of_getElem? (getElem?_zipIdx_eq_some.mp hi).1

mutual

/-- The value of a closed expression is ordered. -/
theorem Expr.toValue_ascends : ∀ {e : Expr} {v : Value}, e.toValue = some v → v.Ascends
  | .lit l, v, h => by
    cases h
    cases l with
    | int | string | bool => exact .scalar
    | unit => exact .unit
  | .tuple elts, v, h => by
    rw [Expr.toValue] at h
    obtain ⟨values, hvalues, rfl⟩ := map_eq_some_iff.mp h
    exact .record (keysAscend_collect _) fun f hf =>
      toValues_ascends hvalues f.2 (mem_tupleFields (mem_collect hf))
  | .record fields, v, h => by
    rw [Expr.toValue] at h
    obtain ⟨values, hvalues, rfl⟩ := map_eq_some_iff.mp h
    exact .record (keysAscend_collect _) fun f hf =>
      toFieldValues_ascends hvalues f (mem_collect hf)
  | .variantCtor tag payload, v, h => by
    rw [Expr.toValue] at h
    obtain ⟨inner, hinner, rfl⟩ := map_eq_some_iff.mp h
    exact .union (Expr.toValue_ascends hinner)
  | .compose _, _, h | .builtin _, _, h | .proj _, _, h | .apply _ _, _, h | .other, _, h =>
    absurd h (by simp [Expr.toValue])

theorem toValues_ascends : ∀ {es : List Expr} {values : List Value},
    Expr.toValues es = some values → ∀ v ∈ values, v.Ascends
  | [], values, h => by
    cases h
    simp
  | e :: es, values, h => by
    simp only [Expr.toValues, bind_eq_bind, bind_eq_some_iff, Option.some.injEq] at h
    obtain ⟨v, hv, vs, hvs, rfl⟩ := h
    intro w hw
    rcases List.mem_cons.mp hw with rfl | hw
    · exact Expr.toValue_ascends hv
    · exact toValues_ascends hvs w hw

theorem toFieldValues_ascends : ∀ {es : List (Label × Expr)} {values : List (String × Value)},
    Expr.toFieldValues es = some values → ∀ f ∈ values, f.2.Ascends
  | [], values, h => by
    cases h
    simp
  | (label, e) :: es, values, h => by
    simp only [Expr.toFieldValues, bind_eq_bind, bind_eq_some_iff, Option.some.injEq] at h
    obtain ⟨v, hv, vs, hvs, rfl⟩ := h
    intro f hf
    rcases List.mem_cons.mp hf with rfl | hf
    · exact Expr.toValue_ascends hv
    · exact toFieldValues_ascends hvs f hf

end

lemma traversal_eq_some {β γ : Type} (f : β → Option γ) (g : List (α × β) → Option (List (α × γ)))
    (hnil : g [] = some []) (hcons : ∀ k v es, g ((k, v) :: es) =
      (f v).bind fun w => (g es).bind fun ws => some ((k, w) :: ws)) {xs : List (α × β)}
    {ys : List (α × γ)} :
    g xs = some ys ↔ List.Forall₂ (SameKey fun v w => f v = some w) xs ys := by
  induction xs generalizing ys with
  | nil =>
    rw [hnil, forall₂_nil_left_iff]
    exact ⟨fun h => (Option.some.inj h).symm, fun h => by rw [h]⟩
  | cons x xs ih =>
    rw [hcons, forall₂_cons_left_iff]
    simp only [bind_eq_some_iff, Option.some.injEq, ih]
    constructor
    · rintro ⟨w, hw, ws, hws, rfl⟩
      exact ⟨_, ws, ⟨rfl, hw⟩, hws, rfl⟩
    · rintro ⟨⟨k, w⟩, ws, ⟨rfl, hw⟩, hws, rfl⟩
      exact ⟨w, hw, ws, hws, rfl⟩

variable {fields values : List (String × Value)} {d : ColumnValue} {v : Value}

lemma singleFields_eq_some {columns : List (String × ColumnValue)} :
    ColumnValue.singleFields fields = some columns ↔
      List.Forall₂ (SameKey fun v c => ColumnValue.single v = some c) fields columns :=
  traversal_eq_some ColumnValue.single ColumnValue.singleFields rfl fun _ _ _ => rfl

lemma repeatFields_eq_some {fields columns : List (String × ColumnValue)} :
    ColumnValue.repeatFields n fields = some columns ↔
      List.Forall₂ (SameKey fun c d => c.repeat_ n = some d) fields columns :=
  traversal_eq_some (ColumnValue.repeat_ n) (ColumnValue.repeatFields n) rfl fun _ _ _ => rfl

lemma fieldExtents_eq_some {extents : List (String × Extent)} : fieldExtents fields = some extents ↔
      List.Forall₂ (SameKey fun v e => valueExtent v = some e) fields extents :=
  traversal_eq_some valueExtent fieldExtents rfl fun _ _ _ => rfl

/-- The column that holds a closed value at each of `n` rows. -/
def Value.column (n : ℕ) (v : Value) : Option ColumnValue :=
  (ColumnValue.single v).bind fun c => c.repeat_ n

lemma KeysAscend.of_forall₂ {β γ : Type} [LT α] {R : β → γ → Prop} {xs : List (α × β)}
    {ys : List (α × γ)} (h : KeysAscend xs) (hxy : List.Forall₂ (SameKey R) xs ys) :
    KeysAscend ys := by rwa [KeysAscend, ← keys_eq_of_forall₂ (fun _ _ hab => hab.1) hxy]

/-- The column of a record holds the columns of its fields. -/
lemma Value.column_record (hasc : KeysAscend values) (h : (Value.record values).column n = some c) :
    ∃ columns, c = .records columns ∧
      List.Forall₂ (SameKey fun v d => v.column n = some d) values columns := by
  rw [Value.column, ColumnValue.single] at h
  simp only [bind_eq_some_iff, map_eq_some_iff] at h
  obtain ⟨-, ⟨singles, hsingles, rfl⟩, hrepeat⟩ := h
  replace hsingles := singleFields_eq_some.mp hsingles
  rw [collect_of_keysAscend (hasc.of_forall₂ hsingles), ColumnValue.repeat_] at hrepeat
  simp only [bind_eq_bind, bind_eq_some_iff, Option.some.injEq] at hrepeat
  obtain ⟨-, -, columns, hcolumns, rfl⟩ := hrepeat
  refine ⟨columns, rfl, ?_⟩
  replace hcolumns := repeatFields_eq_some.mp hcolumns
  clear hasc
  induction hsingles generalizing columns with
  | nil =>
    cases hcolumns
    exact .nil
  | cons hvs _ ih =>
    cases hcolumns with
    | cons hsd hrest =>
      refine .cons ⟨hvs.1.trans hsd.1, ?_⟩ (ih _ hrest)
      exact (congrArg (Option.bind · _) hvs.2).trans hsd.2

lemma Value.column_scalar {τ : ScalarType} (v : τ.Val) :
    (Value.scalar τ v).column n = some (.base τ (List.replicate n v)) := rfl

lemma ColumnValue.repeat_hasRows (h : c.repeat_ n = some d) : d.HasRows n := by
  induction c generalizing d with
  | units m =>
    rw [ColumnValue.repeat_] at h
    split_ifs at h
    cases h
    exact .units
  | base τ values =>
    match values, h with
    | [v], h =>
      cases h
      exact .base length_replicate
  | records fields ih =>
    rw [ColumnValue.repeat_] at h
    simp only [bind_eq_bind, bind_eq_some_iff, Option.some.injEq] at h
    obtain ⟨-, -, columns, hcolumns, rfl⟩ := h
    refine .records fun e he => ?_
    obtain ⟨f, hf, -, hfe⟩ := exists_of_forall₂_mem_right (repeatFields_eq_some.mp hcolumns) he
    exact ih f hf hfe

lemma Value.column_hasRows (h : v.column n = some c) : c.HasRows n := by
  obtain ⟨d, -, hd⟩ := bind_eq_some_iff.mp h
  exact ColumnValue.repeat_hasRows hd

lemma exists_scalar_of_hasView (h : valueExtent v = some extent) (hview : extent.hasView = true) :
    ∃ τ x, v = .scalar τ x := by
  cases v with
  | scalar τ x => exact ⟨τ, x, rfl⟩
  | unit | union => cases h
  | record fields =>
    rw [valueExtent] at h
    obtain ⟨extents, -, rfl⟩ := map_eq_some_iff.mp h
    cases hview

/-! ## Traces -/

section Traces

variable (rt : Runtime) (input : ColumnValue) (n : ℕ)

/-- Instructions with the columns they compute and the empty columns prepared for them. -/
structure Trace where
  instrs : List Instr
  cols : List ColumnValue
  empties : List ColumnValue
  computes : Computes rt input n instrs cols
  empties_eq : (⟨instrs⟩ : ScalarProgram).empties input = some empties

/-- What the empty column prepared for a column of a base type tells of how the column is made. -/
inductive Marks : ColumnValue → ColumnValue → Made → Prop
  | plain {τ : ScalarType} {values : List τ.Val} : Marks (.base τ []) (.base τ values) .plain
  | converted {values : List U64} : Marks (.base .int []) (.base .uint values) .converted

end Traces

namespace Trace

variable {rt : Runtime} {input : ColumnValue} {n : ℕ}

lemma prepared (t : Trace rt input n) : List.Forall₂ Prepared t.empties t.cols := by
  obtain ⟨es, hes, hprep⟩ := t.computes.exists_empties
  rwa [Option.some.inj (t.empties_eq.symm.trans hes)]

/-- The instructions of `t` are the first of `u`'s. -/
def Le (t u : Trace rt input n) : Prop := t.instrs <+: u.instrs

variable {t u : Trace rt input n} {i : ℕ}

lemma Le.cols (h : t.Le u) (hc : t.cols[i]? = some c) : u.cols[i]? = some c := by
  have htake := pushEach_take u.computes.columns t.instrs.length
  rw [← prefix_iff_eq_take.mp h] at htake
  have heq := mem_unique t.computes.columns htake
  rw [heq] at hc
  exact (getElem?_take_eq_some.mp hc).2

lemma Le.empties (h : t.Le u) {e : ColumnValue} (he : t.empties[i]? = some e) :
    u.empties[i]? = some e := by
  have htake := pushEach_take u.empties_eq t.instrs.length
  rw [← prefix_iff_eq_take.mp h] at htake
  have heq := Option.some.inj (t.empties_eq.symm.trans htake)
  rw [heq] at he
  exact (getElem?_take_eq_some.mp he).2

variable {instr : Instr}

lemma Le.instrs (h : t.Le u) (hi : t.instrs[i]? = some instr) : u.instrs[i]? = some instr := by
  rw [prefix_iff_eq_take.mp h] at hi
  exact (getElem?_take_eq_some.mp hi).2

lemma push (t : Trace rt input n) (hcol : instr.column rt input n t.cols = some c)
    (hnamed : ∀ fields, instr = .record fields → KeysAscend fields ∧ fields ≠ []) :
    ∃ (u : Trace rt input n) (e : ColumnValue), u.instrs = t.instrs ++ [instr] ∧
      u.cols[t.instrs.length]? = some c ∧ u.empties[t.instrs.length]? = some e ∧
      ScalarProgram.emptyColumn input t.empties instr = some e ∧ Prepared e c := by
  obtain ⟨e, he, hprep⟩ :=
    Computes.prepared_emptyColumn hcol (fun fields hf => (hnamed fields hf).1) t.prepared
  have hempties : pushEach (ScalarProgram.emptyColumn input) t.instrs = some t.empties :=
    t.empties_eq
  refine ⟨⟨t.instrs ++ [instr], t.cols ++ [c], t.empties ++ [e], ⟨?_, t.computes.rows, ?_⟩, ?_⟩,
    e, rfl, ?_, ?_, he, hprep⟩
  · rw [pushEach_concat, t.computes.columns, bind_some, hcol, bind_some]
  · intro fields hf
    rcases mem_append.mp hf with hf | hf
    · exact t.computes.named fields hf
    · exact hnamed fields (mem_singleton.mp hf).symm
  · rw [ScalarProgram.empties, pushEach_concat, hempties, bind_some, he, bind_some]
  · rw [← t.computes.length_eq, getElem?_concat_length]
  · rw [← pushEach_length hempties, getElem?_concat_length]

end Trace

/-! ## What a value stands for -/

/-- A column, with how it is made. -/
structure Shown where
  column : ColumnValue
  made : Made

/-- The product of named columns. -/
def Shown.product (fields : List (String × Shown)) : Shown where
  column := .records (collect (fields.map fun f => (f.1, f.2.column)))
  made := .product (collect (fields.map fun f => (f.1, f.2.made)))

section Is

variable {rt : Runtime} {input : ColumnValue} {n : ℕ}

/-- The column a value of the recogniser stands for, over the columns computed so far. -/
inductive Val.Is (t : Trace rt input n) : Val → Shown → Prop
  | read {path : List String} {extent : Extent} {c : ColumnValue}
      (hfield : field input path = some c) (hext : c.OfExtent n extent) :
      Is t (.read path extent) ⟨c, .plain⟩
  | slot {s : ℕ} {extent : Extent} {instr : Instr} {c e : ColumnValue} {m : Made}
      (hinstr : t.instrs[s]? = some instr) (hop : instr.isOperation = true)
      (hc : t.cols[s]? = some c) (he : t.empties[s]? = some e) (hm : Marks e c m) :
      Is t (.slot s extent) ⟨c, m⟩
  | const {v : Value} {extent : Extent} {c : ColumnValue} (hasc : v.Ascends)
      (hext : valueExtent v = some extent) (hc : v.column n = some c) :
      Is t (.const v extent) ⟨c, .plain⟩
  | tuple {items : List Val} {xs : List (String × Shown)}
      (hkeys : (tupleFields items).map (·.1) = xs.map (·.1))
      (h : ∀ (i : ℕ) (v : String × Val) (x : String × Shown), (tupleFields items)[i]? = some v →
        xs[i]? = some x → Is t v.2 x.2) :
      Is t (.tuple items) (.product xs)
  | record {arms : List (String × Val)} {xs : List (String × Shown)}
      (hkeys : arms.map (·.1) = xs.map (·.1))
      (h : ∀ (i : ℕ) (v : String × Val) (x : String × Shown), arms[i]? = some v →
        xs[i]? = some x → Is t v.2 x.2) :
      Is t (.record arms) (.product xs)

variable {t u : Trace rt input n} {v : Val} {x : Shown}

/-- Instructions emitted later do not change what a value stands for. -/
lemma Val.Is.mono (h : v.Is t x) (htu : t.Le u) : v.Is u x := by
  induction h with
  | read hfield hext => exact .read hfield hext
  | slot hinstr hop hc he hm =>
    exact .slot (htu.instrs hinstr) hop (htu.cols hc) (htu.empties he) hm
  | const hasc hext hc => exact .const hasc hext hc
  | tuple hkeys _ ih => exact .tuple hkeys ih
  | record hkeys _ ih => exact .record hkeys ih

lemma Shown.product_hasRows {arms : List (String × Val)} {xs : List (String × Shown)}
    (h : List.Forall₂ (SameKey fun _ x => x.column.HasRows n) arms xs) :
    (Shown.product xs).column.HasRows n := by
  refine .records fun f hf => ?_
  obtain ⟨g, hg, rfl⟩ := mem_map.mp (mem_collect hf)
  obtain ⟨-, -, -, ha⟩ := exists_of_forall₂_mem_right h hg
  exact ha

lemma Val.Is.hasRows (h : v.Is t x) : x.column.HasRows n := by
  induction h with
  | read _ hext => exact hext.hasRows
  | slot _ _ hc => exact t.computes.hasRows hc
  | const _ _ hc => exact Value.column_hasRows hc
  | tuple hkeys _ ih => exact Shown.product_hasRows (forall₂_sameKey hkeys ih)
  | record hkeys _ ih => exact Shown.product_hasRows (forall₂_sameKey hkeys ih)

/-- The column is a record of the columns of `xs`, and converts where one of them does. -/
structure Shown.HasFields (x : Shown) (xs : List (String × Shown)) : Prop where
  column : x.column = .records (xs.map fun f => (f.1, f.2.column))
  converts : x.made.converts = xs.any fun f => f.2.made.converts

lemma Shown.product_hasFields (xs : List (String × Shown)) :
    (Shown.product xs).HasFields (collect xs) where
  column := by rw [product, collect_map]
  converts := by
    rw [product, Made.converts, Made.anyConverts_eq, ← collect_map, any_map]
    rfl

lemma Shown.plain_hasFields (fields : List (String × ColumnValue)) :
    (⟨.records fields, .plain⟩ : Shown).HasFields (fields.map fun f => (f.1, ⟨f.2, .plain⟩)) where
  column := by
    rw [map_map]
    exact congrArg ColumnValue.records (map_id fields).symm
  converts := by simp [Made.converts]

variable {path : List String} {fs : List (String × Val)}

lemma field_concat {fields : List (String × ColumnValue)} {name : String}
    (h : field c path = some (.records fields)) (hd : fields.lookup name = some d) :
    field c (path ++ [name]) = some d := by
  rw [field] at h ⊢
  rw [foldlM_append, h]
  simp [hd]

/-- The fields of a read are the reads of the fields. -/
lemma Val.Is.fieldsOf_read (hfield : field input path = some c) (hext : c.OfExtent n extent)
    (hes : extent.recordFields = some es) :
    ∃ xs,
      List.Forall₂ (SameKey (Val.Is t)) (es.map fun f => (f.1, Val.read (path ++ [f.1]) f.2)) xs ∧
      KeysAscend es ∧ (⟨c, .plain⟩ : Shown).HasFields xs := by
  obtain ⟨hasc, fields, rfl, hfields⟩ := hext.exists_fields hes
  refine ⟨_, ?_, hasc, Shown.plain_hasFields fields⟩
  rw [forall₂_map_left_iff, forall₂_map_right_iff]
  have hnodup := (hasc.of_forall₂ hfields).nodup
  refine forall₂_imp_of_mem hfields fun e _ f hf hef => ⟨hef.1, .read ?_ hef.2⟩
  rw [hef.1]
  exact field_concat hfield ((lookup_eq_some_iff_mem hnodup).mpr hf)

/-- The fields of a closed record are the fields' closed values. -/
lemma Val.Is.fieldsOf_const (hasc : (Value.record values).Ascends)
    (hext : valueExtent (.record values) = some extent)
    (hc : (Value.record values).column n = some c) (hes : extent.recordFields = some es)
    (hfs : values.mapM (fun f => (es.lookup f.1).bind fun e => some (f.1, Val.const f.2 e)) =
      some fs) :
    ∃ xs, List.Forall₂ (SameKey (Val.Is t)) fs xs ∧ KeysAscend fs ∧
      (⟨c, .plain⟩ : Shown).HasFields xs := by
  obtain ⟨hkeys, hvalues⟩ : KeysAscend values ∧ ∀ f ∈ values, f.2.Ascends := by
    cases hasc with
    | record hkeys h => exact ⟨hkeys, h⟩
  obtain ⟨columns, rfl, hcolumns⟩ := Value.column_record hkeys hc
  rw [valueExtent] at hext
  obtain ⟨extents, hextents, rfl⟩ := map_eq_some_iff.mp hext
  replace hextents := fieldExtents_eq_some.mp hextents
  cases hes
  rw [collect_of_keysAscend (hkeys.of_forall₂ hextents)] at hfs
  have hnodup := (hkeys.of_forall₂ hextents).nodup
  replace hfs := mapM_eq_some_iff_forall₂.mp hfs
  have hnames : values.map (·.1) = fs.map (·.1) := by
    refine keys_eq_of_forall₂ (fun f g hfg => ?_) hfs
    obtain ⟨e, -, he⟩ := bind_eq_some_iff.mp hfg
    exact congrArg Prod.fst (Option.some.inj he)
  refine ⟨_, ?_, by rwa [KeysAscend, ← hnames], Shown.plain_hasFields columns⟩
  rw [forall₂_map_right_iff]
  refine (forall₂_through hfs hcolumns).imp fun g d hgd => ?_
  obtain ⟨f, hf, hfg, hfd⟩ := hgd
  obtain ⟨e, he, rfl⟩ : ∃ e, extents.lookup f.1 = some e ∧ (f.1, Val.const f.2 e) = g := by
    simpa [bind_eq_some_iff] using hfg
  obtain ⟨e', he', hfe⟩ := exists_of_forall₂_mem_right hextents.flip hf
  have hlookup : extents.lookup f.1 = some e'.2 := by
    rw [lookup_eq_some_iff_mem hnodup, hfe.1]
    exact he'
  obtain rfl := mem_unique he hlookup
  exact ⟨hfd.1, .const (hvalues f hf) hfe.2 hfd.2⟩

/-- The fields of a value that has some are those of its column. -/
lemma Val.Is.fieldsOf (h : v.Is t x) (hfs : v.fieldsOf = some fs) :
    ∃ xs, List.Forall₂ (SameKey (Val.Is t)) fs xs ∧ KeysAscend fs ∧ x.HasFields xs := by
  cases h with
  | slot => cases hfs
  | tuple hkeys h =>
    cases hfs
    exact ⟨_, forall₂_collect (forall₂_sameKey hkeys h), keysAscend_collect _,
      Shown.product_hasFields _⟩
  | record hkeys h =>
    cases hfs
    exact ⟨_, forall₂_collect (forall₂_sameKey hkeys h), keysAscend_collect _,
      Shown.product_hasFields _⟩
  | read hfield hext =>
    simp only [Val.fieldsOf, bind_eq_bind, bind_eq_some_iff, Option.some.injEq] at hfs
    obtain ⟨es, hes, rfl⟩ := hfs
    obtain ⟨xs, hxs, hasc, hx⟩ := Val.Is.fieldsOf_read (t := t) hfield hext hes
    refine ⟨xs, ?_, keysAscend_collect _, hx⟩
    rwa [collect_of_keysAscend]
    rw [KeysAscend, map_map]
    exact hasc
  | @const v _ _ hasc hext hc =>
    cases v with
    | scalar | unit | union => cases hfs
    | record values =>
      simp only [Val.fieldsOf, bind_eq_bind, bind_eq_some_iff, Option.some.injEq] at hfs
      obtain ⟨es, hes, fields, hfields, rfl⟩ := hfs
      obtain ⟨xs, hxs, hkeys, hx⟩ := Val.Is.fieldsOf_const (t := t) hasc hext hc hes hfields
      refine ⟨xs, ?_, keysAscend_collect _, hx⟩
      rwa [collect_of_keysAscend hkeys]

end Is

end Cambra
