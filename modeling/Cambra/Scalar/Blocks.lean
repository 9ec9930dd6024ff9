import Cambra.Scalar.Program
import Cambra.Scalar.Rows

/-!
# Evaluation in blocks computes the whole columns

`Instr.column` says what an instruction computes over the whole input at once, given the columns of
the instructions before it, and `Computes` that a program's instructions all compute their columns.
`ScalarProgram.eval` never holds such a column: it works on blocks of rows in reused scratch
columns. The invariant (`Scratch.Holds`) is that the scratch column of an operation already run in
this block holds the block's rows of its whole column, and that of an operation not yet run is
unwritten or holds rows of an earlier block.

The result: `eval` appends the last instruction's whole column to the empty column prepared for it
(`Computes.eval_eq`).  So it returns that column where the prepared column has its shape
(`Computes.eval_eq_some`), and panics where it has not (`Computes.eval_eq_none`).
-/

namespace Cambra

open List hiding getElem?_eq_some_iff
open Option hiding guard map_map

variable (rt : Runtime)

/-- The column an instruction computes over `n` rows of input, given those of the instructions
before it. -/
def Instr.column (input : ColumnValue) (n : ℕ) (cols : List ColumnValue) :
    Instr → Option ColumnValue
  | .input path => do
    let column ← field input path
    let _ ← column.view
    some column
  | .const (.scalar τ v) => some (.base τ (List.replicate n v))
  | .const _ => none
  | .bin op a b => do
    let left ← cols[a]?
    let right ← cols[b]?
    binColumn rt op left right
  | .un op a => do
    let operand ← cols[a]?
    unColumn rt op operand
  | .record fields => do
    let columns ← fields.mapM fun f => (cols[f.2]?).map (f.1, ·)
    some (.records columns)

/-- What the column of an instruction is made of. -/
inductive Instr.Yields (input : ColumnValue) (n : ℕ) (cols : List ColumnValue) :
    Instr → ColumnValue → Prop
  | input {path : List String} {c : ColumnValue} {v : ColumnView} (hc : field input path = some c)
      (hv : c.view = some v) : Yields input n cols (.input path) c
  | const {τ : ScalarType} {v : τ.Val} :
      Yields input n cols (.const (.scalar τ v)) (.base τ (List.replicate n v))
  | bin {op : BinOpKind} {a b : ℕ} {l r c : ColumnValue} (hl : cols[a]? = some l)
      (hr : cols[b]? = some r) (h : binColumn rt op l r = some c) :
      Yields input n cols (.bin op a b) c
  | un {op : UnaryOpKind} {a : ℕ} {l c : ColumnValue} (hl : cols[a]? = some l)
      (h : unColumn rt op l = some c) : Yields input n cols (.un op a) c
  | record {fields : List (String × ℕ)} {columns : List (String × ColumnValue)}
      (h : fields.mapM (fun f => (cols[f.2]?).map (f.1, ·)) = some columns) :
      Yields input n cols (.record fields) (.records columns)

variable {n start : ℕ} {fields : List (String × ℕ)}

lemma Instr.yields_of_column {input c : ColumnValue} {cols : List ColumnValue} {instr : Instr}
    (h : instr.column rt input n cols = some c) : instr.Yields rt input n cols c := by
  cases instr with
  | const value =>
    cases value with
    | scalar τ v =>
      cases h
      exact .const
    | _ => cases h
  | input path =>
    obtain ⟨d, hd, h⟩ := bind_eq_some_iff.mp h
    obtain ⟨v, hv, h⟩ := bind_eq_some_iff.mp h
    cases h
    exact .input hd hv
  | bin op a b =>
    obtain ⟨l, hl, h⟩ := bind_eq_some_iff.mp h
    obtain ⟨r, hr, h⟩ := bind_eq_some_iff.mp h
    exact .bin hl hr h
  | un op a =>
    obtain ⟨l, hl, h⟩ := bind_eq_some_iff.mp h
    exact .un hl h
  | record fields =>
    obtain ⟨columns, hcolumns, h⟩ := bind_eq_some_iff.mp h
    cases h
    exact .record hcolumns

/-- The instructions compute the columns `cols` over an input of `n` rows. -/
structure Computes (input : ColumnValue) (n : ℕ) (instrs : List Instr) (cols : List ColumnValue) :
    Prop where
  columns : pushEach (Instr.column rt input n) instrs = some cols
  rows : input.HasRows n
  /-- A record instruction names fields, in the order of their names. -/
  named : ∀ fields, Instr.record fields ∈ instrs → KeysAscend fields ∧ fields ≠ []

variable {rt} {input c out : ColumnValue} {a i : ℕ} {instr : Instr} {instrs : List Instr}
  {cols : List ColumnValue} {s : Scratch}

lemma field_hasRows {d : ColumnValue} (hc : c.HasRows n) {path : List String}
    (h : field c path = some d) : d.HasRows n := by
  induction path generalizing c with
  | nil =>
    cases h
    exact hc
  | cons name path ih =>
    rw [field, foldlM_cons] at h
    obtain ⟨e, he, hd⟩ := bind_eq_some_iff.mp h
    cases hc with
    | units | base => cases he
    | records hfields => exact ih (hfields _ (mem_of_lookup_eq_some he)) hd

lemma getElem?_take_eq_some {α : Type} {xs : List α} {x : α} :
    (xs.take i)[a]? = some x ↔ a < i ∧ xs[a]? = some x := by
  rw [getElem?_take]
  split_ifs with h <;> simp [h]

namespace Computes

lemma record_fields (hcol : (Instr.record fields).column rt input n (cols.take i) = some c) :
    ∃ columns, c = .records columns ∧ List.Forall₂
      (fun (f : String × ℕ) (e : String × ColumnValue) => f.1 = e.1 ∧ f.2 < i ∧
        cols[f.2]? = some e.2) fields columns := by
  cases Instr.yields_of_column rt hcol with
  | @record _ columns hcolumns =>
    refine ⟨columns, rfl, (mapM_eq_some_iff_forall₂.mp hcolumns).imp fun f e hfe => ?_⟩
    obtain ⟨d, hd, rfl⟩ := map_eq_some_iff.mp hfe
    exact ⟨rfl, getElem?_take_eq_some.mp hd⟩

variable (h : Computes rt input n instrs cols)

include h

lemma length_eq : cols.length = instrs.length := pushEach_length h.columns

lemma column_eq (hi : instrs[i]? = some instr) :
    ∃ c, cols[i]? = some c ∧ instr.column rt input n (cols.take i) = some c :=
  pushEach_getElem h.columns hi

lemma instr_eq (hc : cols[i]? = some c) :
    ∃ instr, instrs[i]? = some instr ∧ instr.column rt input n (cols.take i) = some c := by
  have hi := h.length_eq ▸ (List.getElem?_eq_some_iff.mp hc).1
  have hinstr := getElem?_eq_getElem hi
  obtain ⟨d, hd, hcol⟩ := h.column_eq hinstr
  obtain rfl := mem_unique hc hd
  exact ⟨_, hinstr, hcol⟩

lemma hasRows (hc : cols[i]? = some c) : c.HasRows n := by
  induction i using Nat.strongRecOn generalizing c with
  | ind i ih =>
    obtain ⟨instr, -, hcol⟩ := h.instr_eq hc
    have hearlier : ∀ {a} {d : ColumnValue}, (cols.take i)[a]? = some d → d.HasRows n := fun hd =>
      ih _ (getElem?_take_eq_some.mp hd).1 (getElem?_take_eq_some.mp hd).2
    cases Instr.yields_of_column rt hcol with
    | input hd _ => exact field_hasRows h.rows hd
    | const => exact .base (by simp)
    | bin hl hr hlr => exact (binColumn_spec rt hlr (hearlier hl) (hearlier hr)).1
    | un hl hlr => exact (unColumn_spec rt hlr (hearlier hl)).1
    | record =>
      obtain ⟨columns, heq, hfields⟩ := record_fields hcol
      rw [heq]
      refine .records fun e he => ?_
      obtain ⟨f, -, -, hlt, hf⟩ := exists_of_forall₂_mem_right hfields he
      exact ih f.2 hlt hf

/-- Only a record computes a column that is not of a base type. -/
lemma isSome_view (hinstr : instrs[i]? = some instr) (hc : cols[i]? = some c)
    (hrec : ¬∃ fields, instr = .record fields) : c.view.isSome := by
  obtain ⟨d, hd, hcol⟩ := h.column_eq hinstr
  obtain rfl := mem_unique hc hd
  have hearlier : ∀ {a} {d : ColumnValue}, (cols.take i)[a]? = some d → d.HasRows n := fun hd =>
    h.hasRows (getElem?_take_eq_some.mp hd).2
  cases Instr.yields_of_column rt hcol with
  | input _ hv => exact isSome_iff_exists.mpr ⟨_, hv⟩
  | const => rfl
  | bin hl hr hlr => exact (binColumn_spec rt hlr (hearlier hl) (hearlier hr)).2.2.2.1
  | un hl hlr => exact (unColumn_spec rt hlr (hearlier hl)).2.2.1
  | record => exact absurd ⟨_, rfl⟩ hrec

end Computes

/-! ## The scratch columns -/

/-- The operations before `k` have run in the current block: their scratch columns hold its rows,
and those of the others nothing, or rows of an earlier block. -/
structure Scratch.Holds (input : ColumnValue) (n : ℕ) (instrs : List Instr)
    (cols : List ColumnValue) (s : Scratch) (k : ℕ) : Prop where
  input_eq : s.input = input
  length_eq : s.slots.length = instrs.length
  block_le : s.start + s.len ≤ n
  done : ∀ {i instr c}, i < k → instrs[i]? = some instr → instr.isOperation = true →
    cols[i]? = some c → s.slots[i]? = some (c.slice s.start s.len)
  stale : ∀ {i instr c}, k ≤ i → instrs[i]? = some instr → instr.isOperation = true →
    cols[i]? = some c → s.slots[i]? = some (.units 0) ∨ ∃ a l, s.slots[i]? = some (c.slice a l)

variable {v : ColumnView}

lemma ColumnValue.view_toBase (h : c.view = some v) : v.toBase = c := by
  cases c with
  | units | records => cases h
  | base τ values =>
    cases h
    rfl

lemma ColumnValue.exists_view_slice (h : c.view.isSome) (a k : ℕ) :
    ∃ v, (c.slice a k).view = some v := by
  cases c with
  | units | records => cases h
  | base τ values => exact ⟨_, rfl⟩

lemma ColumnView.len_of_hasRows (h : v.toBase.HasRows n) : v.len = n := by
  cases h with
  | base h => rw [← h, ColumnView.len, View.length_values]

/-- Updating each field of a record column in turn appends to each. -/
lemma foldlM_appendFields {u : ℕ → ColumnValue → Option ColumnValue}
    {gs : List (String × ColumnValue)}
    (h : List.Forall₂ (fun f g => f.1 = g.1 ∧ ∀ c, ColumnValue.SameNames c g.2 →
      u f.2 c = c.append g.2) fields gs) :
    ∀ (done) {fs : List (String × ColumnValue)}, ColumnValue.SameFields fs gs →
      KeysAscend (done ++ fs) →
      fields.foldlM (fun columns f => do
        let column ← columns.lookup f.1
        let column ← u f.2 column
        some (insertEntry f.1 column columns)) (done ++ fs) =
      (ColumnValue.appendFields fs gs).map (done ++ ·) := by
  induction h with
  | nil =>
    intro done fs hfs _
    cases fs with
    | nil => simp [ColumnValue.appendFields]
    | cons e fs => exact hfs.elim
  | @cons f g fields gs hfg hrest ih =>
    intro done fs hfs hasc
    cases fs with
    | nil => exact hfs.elim
    | cons e fs =>
      obtain ⟨k, c⟩ := e
      obtain ⟨k', d⟩ := g
      obtain ⟨rfl, hnames, hothers⟩ := hfs
      obtain ⟨hf, hu⟩ := hfg
      have hlookup : (done ++ (k, c) :: fs).lookup f.1 = some c :=
        (lookup_eq_some_iff_mem hasc.nodup).mpr (by simp [hf])
      rw [foldlM_cons, hlookup]
      simp only [bind_eq_bind, bind_some, hu c hnames, ColumnValue.appendFields, if_true]
      cases happend : c.append d with
      | none => rfl
      | some c' =>
        have hinsert : insertEntry f.1 c' (done ++ (k, c) :: fs) = done ++ (k, c') :: fs := by
          rw [hf]
          exact insertEntry_replace hasc
        have hasc' : KeysAscend ((done ++ [(k, c')]) ++ fs) := by simpa [KeysAscend] using hasc
        have hrest := ih (done ++ [(k, c')]) hothers hasc'
        rw [append_assoc, singleton_append] at hrest
        simp only [bind_some, hinsert, bind_eq_bind] at hrest ⊢
        rw [hrest]
        cases ColumnValue.appendFields fs gs <;> simp

variable {k : ℕ}

lemma Scratch.Holds.take (hs : s.Holds input n instrs cols k) :
    ({ s with slots := s.slots.set k (.units 0) } : Scratch).Holds input n instrs cols k where
  __ := hs
  length_eq := by rw [length_set, hs.length_eq]
  done {i _ _} hik hinstr hop hcol := by
    rw [getElem?_set_ne (by omega)]
    exact hs.done hik hinstr hop hcol
  stale {i instr _} hik hinstr hop hcol := by
    rcases Nat.eq_or_lt_of_le hik with rfl | hlt
    · refine .inl (getElem?_set_self ?_)
      rw [hs.length_eq]
      exact (List.getElem?_eq_some_iff.mp hinstr).1
    · rw [getElem?_set_ne (by omega)]
      exact hs.stale hik hinstr hop hcol

lemma Scratch.Holds.put (hs : s.Holds input n instrs cols k) (hcol : cols[k]? = some c) :
    ({ s with slots := s.slots.set k (c.slice s.start s.len) } : Scratch).Holds
      input n instrs cols (k + 1) where
  __ := hs
  length_eq := by rw [length_set, hs.length_eq]
  done {i _ d} hik hinstr hop hcoli := by
    rcases Nat.eq_or_lt_of_le (Nat.le_of_lt_succ hik) with rfl | hlt
    · obtain rfl := mem_unique hcol hcoli
      refine getElem?_set_self ?_
      rw [hs.length_eq]
      exact (List.getElem?_eq_some_iff.mp hinstr).1
    · rw [getElem?_set_ne (by omega)]
      exact hs.done hlt hinstr hop hcoli
  stale {i _ _} hik hinstr hop hcoli := by
    rw [getElem?_set_ne (by omega)]
    exact hs.stale (by omega) hinstr hop hcoli

/-! ## Running a block's instructions -/

section Run

variable (hc : Computes rt input n instrs cols) (hs : s.Holds input n instrs cols k)
include hc hs

/-- The view of an instruction shows the block's rows of its column. -/
lemma Scratch.Holds.view_eq (hcol : cols[a]? = some c) (hbase : c.view.isSome) (hlt : a < k) :
    ∃ v, s.view ⟨instrs⟩ a = some v ∧ v.len = s.len ∧ v.toBase = c.slice s.start s.len := by
  obtain ⟨instr, hinstr, hcomp⟩ := hc.instr_eq hcol
  have hrows := hc.hasRows hcol
  have hblock := hs.block_le
  -- an operation's slot was written in this block
  have hslot : instr.isOperation = true → ∃ v, s.slots[a]?.bind ColumnValue.view = some v ∧
      v.len = s.len ∧ v.toBase = c.slice s.start s.len := by
    intro hop
    obtain ⟨v, hv⟩ := ColumnValue.exists_view_slice hbase s.start s.len
    have hvc := ColumnValue.view_toBase hv
    exact ⟨v, by rw [hs.done hlt hinstr hop hcol, bind_some, hv],
      ColumnView.len_of_hasRows (hvc ▸ hrows.slice hblock), hvc⟩
  rw [Scratch.view]
  cases Instr.yields_of_column rt hcomp with
  | @input path _ v hd hv =>
    have hvc := ColumnValue.view_toBase hv
    have hlen : v.len = n := ColumnView.len_of_hasRows (hvc ▸ hrows)
    obtain ⟨w, hw, hwlen, hwbase⟩ :=
      ColumnView.range_toBase (v := v) (Nat.le_add_right s.start s.len) (hlen ▸ hblock)
    refine ⟨w, ?_, by omega, ?_⟩
    · simp [hinstr, hs.input_eq, hd, hv, hw]
    · rw [hwbase, hvc, Nat.add_sub_cancel_left]
  | @const τ v =>
    refine ⟨⟨τ, .constant v s.len⟩, ?_, rfl, ?_⟩
    · simp [hinstr, constView]
    · rw [ColumnView.toBase, View.values, ColumnValue.slice_base, drop_replicate,
        take_replicate, Nat.min_eq_left (by omega)]
  | bin =>
    rw [hinstr]
    exact hslot rfl
  | un =>
    rw [hinstr]
    exact hslot rfl
  | record => cases hbase

/-- The views of a binary operation's operands give the block's rows of its column, and tell the
type of the column. -/
lemma Scratch.Holds.bin_views {b : ℕ} {op : BinOpKind}
    (hinstr : instrs[i]? = some (.bin op a b)) (hik : i ≤ k) (hcol : cols[i]? = some c) :
    ∃ v w, s.view ⟨instrs⟩ a = some v ∧ s.view ⟨instrs⟩ b = some w ∧ v.len = w.len ∧
      binColumn rt op v.toBase w.toBase = some (c.slice s.start s.len) ∧
      binopResultColumn op v = c.emptyLike := by
  obtain ⟨d, hd, hcomp⟩ := hc.column_eq hinstr
  obtain rfl := mem_unique hcol hd
  simp only [Instr.column, bind_eq_bind, bind_eq_some_iff, getElem?_take_eq_some] at hcomp
  obtain ⟨l, ⟨ha, hl⟩, r, ⟨hb, hr⟩, hlr⟩ := hcomp
  obtain ⟨-, hlbase, hrbase, -, -⟩ := binColumn_spec rt hlr (hc.hasRows hl) (hc.hasRows hr)
  obtain ⟨v, hv, hvlen, hvbase⟩ := hs.view_eq hc hl hlbase (lt_of_lt_of_le ha hik)
  obtain ⟨w, hw, hwlen, hwbase⟩ := hs.view_eq hc hr hrbase (lt_of_lt_of_le hb hik)
  have hslice := binColumn_slice rt hlr s.start s.len
  obtain ⟨-, -, -, -, hresult⟩ := binColumn_spec rt hslice
    ((hc.hasRows hl).slice hs.block_le) ((hc.hasRows hr).slice hs.block_le)
  refine ⟨v, w, hv, hw, hvlen.trans hwlen.symm, by rw [hvbase, hwbase, hslice], ?_⟩
  rw [hresult v hvbase, ColumnValue.emptyLike_slice]

/-- The view of a unary operation's operand gives the block's rows of its column, and tells the type
of the column. -/
lemma Scratch.Holds.un_view {op : UnaryOpKind} (hinstr : instrs[i]? = some (.un op a))
    (hik : i ≤ k) (hcol : cols[i]? = some c) :
    ∃ v, s.view ⟨instrs⟩ a = some v ∧ unColumn rt op v.toBase = some (c.slice s.start s.len) ∧
      unaryopResultColumn op v = c.emptyLike := by
  obtain ⟨d, hd, hcomp⟩ := hc.column_eq hinstr
  obtain rfl := mem_unique hcol hd
  simp only [Instr.column, bind_eq_bind, bind_eq_some_iff, getElem?_take_eq_some] at hcomp
  obtain ⟨l, ⟨ha, hl⟩, hlc⟩ := hcomp
  obtain ⟨-, hlbase, -, -⟩ := unColumn_spec rt hlc (hc.hasRows hl)
  obtain ⟨v, hv, -, hvbase⟩ := hs.view_eq hc hl hlbase (lt_of_lt_of_le ha hik)
  have hslice := unColumn_slice rt hlc s.start s.len
  obtain ⟨-, -, -, hresult⟩ := unColumn_spec rt hslice ((hc.hasRows hl).slice hs.block_le)
  refine ⟨v, hv, by rw [hvbase, hslice], ?_⟩
  rw [hresult v hvbase, ColumnValue.emptyLike_slice]

/-- An operation appends the block's rows of its column. -/
lemma Scratch.Holds.run_operation (hinstr : instrs[i]? = some instr)
    (hop : instr.isOperation = true) (hik : i ≤ k) (hcol : cols[i]? = some c) (out : ColumnValue) :
    s.run rt ⟨instrs⟩ i out = out.append (c.slice s.start s.len) := by
  rw [Scratch.run]
  cases instr with
  | input | const | record => cases hop
  | bin op a b =>
    obtain ⟨v, w, hv, hw, hlen, hbin, -⟩ := hs.bin_views hc hinstr hik hcol
    simp only [hinstr, hv, hw, bind_eq_bind, bind_some]
    rw [applyBinopViews_eq rt op hlen, hbin, bind_some]
  | un op a =>
    obtain ⟨v, hv, hun, -⟩ := hs.un_view hc hinstr hik hcol
    simp only [hinstr, hv, bind_eq_bind, bind_some]
    rw [applyUnaryopViews_eq rt op, hun, bind_some]

/-- What running a record does to the column of one of its fields. -/
def Scratch.extend (rt : Runtime) (s : Scratch) (instrs : List Instr) (field : ℕ)
    (d : ColumnValue) : Option ColumnValue :=
  instrs[field]?.bind fun instr =>
    match instr with
    | .record _ => s.run rt ⟨instrs⟩ field d
    | _ => (s.view ⟨instrs⟩ field).bind d.extendFromView

/-- An operation or a record appends the block's rows of its column. -/
lemma Scratch.Holds.run_eq (hinstr : instrs[i]? = some instr)
    (hresult : instr.isOperation = true ∨ ∃ fields, instr = .record fields) (hik : i ≤ k)
    (hcol : cols[i]? = some c) (hout : ColumnValue.SameNames out c) :
    s.run rt ⟨instrs⟩ i out = out.append (c.slice s.start s.len) := by
  -- a record reads earlier slots only
  induction i using Nat.strongRecOn generalizing instr c out with
  | ind i ih =>
    rcases hresult with hop | ⟨fields, rfl⟩
    · exact hs.run_operation hc hinstr hop hik hcol out
    obtain ⟨d, hd, hcomp⟩ := hc.column_eq hinstr
    obtain rfl := mem_unique hcol hd
    obtain ⟨columns, rfl, hfields⟩ := Computes.record_fields hcomp
    obtain ⟨hasc, -⟩ := hc.named fields (mem_of_getElem? hinstr)
    cases out with
    | units | base => exact hout.elim
    | records fs =>
      rw [ColumnValue.slice_records, ColumnValue.append, Scratch.run]
      simp only [hinstr, bind_eq_bind, bind_some]
      have hsame : ColumnValue.SameFields fs
          (columns.map fun e => (e.1, e.2.slice s.start s.len)) := by
        have := (ColumnValue.sameNames_slice (a := s.start) (k := s.len)).mpr hout
        rwa [ColumnValue.slice_records] at this
      have hkeys : fs.map (·.1) = fields.map (·.1) := by
        rw [hsame.keys_eq, map_map]
        exact (keys_eq_of_forall₂ (fun _ _ h => h.1) hfields).symm
      have hrel : List.Forall₂ (fun f g => f.1 = g.1 ∧ ∀ d, ColumnValue.SameNames d g.2 →
          s.extend rt instrs f.2 d = d.append g.2) fields
          (columns.map fun e => (e.1, e.2.slice s.start s.len)) := by
        refine forall₂_map_right_iff.mpr (hfields.imp fun f e hfe => ⟨hfe.1, fun d hd => ?_⟩)
        obtain ⟨-, hlt, hcolf⟩ := hfe
        obtain ⟨instr, hinstrf, hcompf⟩ := hc.instr_eq hcolf
        simp only [Scratch.extend, hinstrf, bind_some]
        by_cases hrec : ∃ fields, instr = .record fields
        · obtain ⟨fields', rfl⟩ := hrec
          exact ih f.2 hlt hinstrf (.inr ⟨fields', rfl⟩) (by omega) hcolf
            (ColumnValue.sameNames_slice.mp hd)
        · obtain ⟨v, hv, -, hvbase⟩ := hs.view_eq hc hcolf
            (hc.isSome_view hinstrf hcolf hrec) (by omega)
          split
          · exact absurd ⟨_, rfl⟩ hrec
          · rw [hv, bind_some, ColumnValue.extendFromView_eq, hvbase]
      have hfold := foldlM_appendFields hrel [] hsame
        (by rw [nil_append, KeysAscend, hkeys]; exact hasc)
      simp only [nil_append, bind_eq_bind] at hfold
      refine (congrArg (·.bind fun columns => some (ColumnValue.records columns)) hfold).trans ?_
      cases ColumnValue.appendFields fs
        (columns.map fun e => (e.1, e.2.slice s.start s.len)) <;> rfl

/-- The column an operation writes into is the empty column of its type. -/
lemma Scratch.Holds.slotColumn_eq (hinstr : instrs[k]? = some instr)
    (hop : instr.isOperation = true) (hcol : cols[k]? = some c) :
    s.slotColumn ⟨instrs⟩ k instr =
      some ({ s with slots := s.slots.set k (.units 0) }, c.emptyLike) := by
  rw [Scratch.slotColumn]
  rcases hs.stale (Nat.le_refl k) hinstr hop hcol with hslot | ⟨a, l, hslot⟩
  · cases instr with
    | input | const | record => cases hop
    | bin op a b =>
      obtain ⟨v, w, hv, -, -, -, hresult⟩ := hs.take.bin_views hc hinstr (Nat.le_refl k) hcol
      simp [hslot, hv, hresult]
    | un op a =>
      obtain ⟨v, hv, -, hresult⟩ := hs.take.un_view hc hinstr (Nat.le_refl k) hcol
      simp [hslot, hv, hresult]
  · have hbase := hc.isSome_view hinstr hcol (by
      rintro ⟨fields, rfl⟩
      exact absurd hop (by simp [Instr.isOperation]))
    cases c with
    | units | records => cases hbase
    | base τ values =>
      simp only [hslot, bind_eq_bind, bind_some, ColumnValue.slice_base]
      rfl

lemma Scratch.Holds.runIntoSlot (hk : k < instrs.length) :
    ∃ s', s.runIntoSlot rt ⟨instrs⟩ k = some s' ∧ s'.Holds input n instrs cols (k + 1) ∧
      s'.start = s.start ∧ s'.len = s.len := by
  have hinstr : instrs[k]? = some instrs[k] := getElem?_eq_getElem hk
  obtain ⟨c, hcol, -⟩ := hc.column_eq hinstr
  rw [Scratch.runIntoSlot]
  simp only [hinstr, bind_eq_bind, bind_some]
  by_cases hop : instrs[k].isOperation = true
  · have hrun := hs.take.run_operation hc hinstr hop (Nat.le_refl k) hcol c.emptyLike
    have happend : c.emptyLike.append (c.slice s.start s.len) = some (c.slice s.start s.len) := by
      rw [← ColumnValue.emptyLike_slice s.start s.len c]
      exact ColumnValue.append_emptyLike _
    rw [happend] at hrun
    rw [if_pos hop, hs.slotColumn_eq hc hinstr hop hcol]
    simp only [bind_some, hrun]
    exact ⟨_, rfl, hs.take.put hcol, rfl, rfl⟩
  · rw [if_neg hop]
    refine ⟨s, rfl, ⟨hs.input_eq, hs.length_eq, hs.block_le, ?_, ?_⟩, rfl, rfl⟩
    · intro i instr d hik hi hopi hcoli
      rcases Nat.eq_or_lt_of_le (Nat.le_of_lt_succ hik) with rfl | hlt
      · obtain rfl := mem_unique hinstr hi
        exact absurd hopi hop
      · exact hs.done hlt hi hopi hcoli
    · exact fun hik => hs.stale (by omega)

end Run

/-! ## One block -/

lemma Scratch.Holds.runSlots (hc : Computes rt input n instrs cols)
    (hs : s.Holds input n instrs cols 0) (hk : k ≤ instrs.length) :
    ∃ s', (List.range k).foldlM (fun s slot => s.runIntoSlot rt ⟨instrs⟩ slot) s = some s' ∧
      s'.Holds input n instrs cols k ∧ s'.start = s.start ∧ s'.len = s.len := by
  induction k with
  | zero => exact ⟨s, rfl, hs, rfl, rfl⟩
  | succ k ih =>
    obtain ⟨t, hfold, ht, hstart, hlen⟩ := ih (by omega)
    obtain ⟨u, hrun, hu, hustart, hulen⟩ := ht.runIntoSlot hc (by omega)
    refine ⟨u, ?_, hu, hustart.trans hstart, hulen.trans hlen⟩
    rw [range_succ, foldlM_append, hfold]
    simp [hrun]

/-- One block appends its rows of the last column, and leaves the scratch columns ready for the
next. -/
lemma Scratch.Holds.block_eq (hc : Computes rt input n instrs cols)
    (hs : s.Holds input n instrs cols 0) (hlast : instrs.getLast? = some instr)
    (hresult : instr.isOperation = true ∨ ∃ fields, instr = .record fields)
    (hcol : cols.getLast? = some c) (hout : ColumnValue.SameNames out c) {len : ℕ}
    (hblock : start + len ≤ n) :
    ∃ s' : Scratch, s'.Holds input n instrs cols 0 ∧
      s.block rt ⟨instrs⟩ start len out = (out.append (c.slice start len)).map (s', ·) := by
  have hinstr : instrs[instrs.length - 1]? = some instr := by
    rwa [getLast?_eq_getElem?] at hlast
  have hcolumn : cols[instrs.length - 1]? = some c := by
    rwa [getLast?_eq_getElem?, hc.length_eq] at hcol
  have hready : ({ s with start := start, len := len } : Scratch).Holds input n instrs cols 0 :=
    ⟨hs.input_eq, hs.length_eq, hblock, fun h => absurd h (Nat.not_lt_zero _), hs.stale⟩
  obtain ⟨t, hfold, ht, hstart, hlen⟩ := hready.runSlots hc (Nat.sub_le instrs.length 1)
  have hrun := ht.run_eq hc hinstr hresult (Nat.le_refl _) hcolumn hout
  refine ⟨t, ⟨ht.input_eq, ht.length_eq, ht.block_le, fun h => absurd h (Nat.not_lt_zero _),
    fun {i instr d} _ hi hop hd => ?_⟩, ?_⟩
  · by_cases hik : i < instrs.length - 1
    · exact .inr ⟨_, _, ht.done hik hi hop hd⟩
    · exact ht.stale (by omega) hi hop hd
  · rw [Scratch.block]
    simp only [hfold, bind_eq_bind, bind_some, hrun, hstart, hlen]
    cases out.append (c.slice start len) <;> rfl

/-! ## The whole evaluation -/

namespace Computes

/-- The blocks from `start` on append the rows from `start` on. -/
lemma blocks_eq (hc : Computes rt input n instrs cols) (hlast : instrs.getLast? = some instr)
    (hresult : instr.isOperation = true ∨ ∃ fields, instr = .record fields)
    (hcol : cols.getLast? = some c) (hstart : start ≤ n) (hs : s.Holds input n instrs cols 0)
    (hout : ColumnValue.SameNames out c) :
    (⟨instrs⟩ : ScalarProgram).blocks rt n start s out =
      out.append (c.slice start (n - start)) := by
  induction hrest : n - start using Nat.strongRecOn generalizing start s out with
  | ind rest ih =>
    have hrows : 0 < blockRows := by decide
    generalize hk : min blockRows (n - start) = k
    obtain ⟨s', hs', hblock⟩ := hs.block_eq hc hlast hresult hcol hout (show start + k ≤ n by omega)
    rw [ScalarProgram.blocks]
    simp only [hk, hblock, bind_eq_bind]
    by_cases hdone : start + k ≥ n
    · obtain rfl : k = rest := by omega
      simp only [if_pos hdone]
      cases out.append (c.slice start k) <;> rfl
    · simp only [if_neg hdone]
      have hslices := ColumnValue.append_slices start k (n - (start + k)) hout
      rw [show k + (n - (start + k)) = rest by omega] at hslices
      rw [← hslices]
      cases happend : out.append (c.slice start k) with
      | none => rfl
      | some out' =>
        exact ih (n - (start + k)) (by omega) (by omega) hs' (hout.append happend) rfl

/-- Every column has a number of rows to count. -/
lemma len_eq (h : Computes rt input n instrs cols) (hc : cols[i]? = some c) : c.len = some n := by
  induction i using Nat.strongRecOn generalizing c with
  | ind i ih =>
    obtain ⟨instr, hinstr, hcol⟩ := h.instr_eq hc
    have hrows := h.hasRows hc
    cases c with
    | units m =>
      cases hrows
      rfl
    | base τ values =>
      cases hrows with
      | base hlen => exact congrArg some hlen
    | records columns =>
      by_cases hrec : ∃ fields, instr = .record fields
      · obtain ⟨fields, rfl⟩ := hrec
        obtain ⟨-, hne⟩ := h.named fields (mem_of_getElem? hinstr)
        obtain ⟨columns', heq, hfields⟩ := record_fields hcol
        obtain rfl := ColumnValue.records.inj heq
        cases hfields with
        | nil => exact absurd rfl hne
        | cons hfirst _ =>
          rw [ColumnValue.len]
          exact ih _ hfirst.2.1 hfirst.2.2
      · exact absurd (h.isSome_view hinstr hc hrec) (by simp [ColumnValue.view])

end Computes

/-- An empty column prepared for a column: it has the column's record fields, and it is of the
column's type, except that a `UInt` column may have an `Int` column prepared. -/
structure Prepared (e c : ColumnValue) : Prop where
  empty : e.emptyLike = e
  names : ColumnValue.SameNames e c
  type : ∀ {τ values}, c = .base τ values → e = .base τ [] ∨ e = .base .int [] ∧ τ = .uint

lemma Prepared.emptyLike (c : ColumnValue) : Prepared c.emptyLike c where
  empty := c.emptyLike_emptyLike
  names := c.sameNames_emptyLike
  type h := .inl (by rw [h]; rfl)

lemma Prepared.records {es cs : List (String × ColumnValue)}
    (h : List.Forall₂ (SameKey Prepared) es cs) : Prepared (.records es) (.records cs) where
  empty := by
    rw [ColumnValue.emptyLike_records]
    congr 1
    induction h with
    | nil => rfl
    | @cons e c es cs hec _ ih => rw [map_cons, ih, hec.2.empty]
  names := by
    rw [ColumnValue.SameNames]
    induction h with
    | nil => trivial
    | @cons e c es cs hec _ ih => exact ⟨hec.1, hec.2.names, ih⟩
  type hc := absurd hc (by simp)

lemma Prepared.base {τ : ScalarType} {values : List τ.Val} :
    Prepared (.base τ []) (.base τ values) := .emptyLike (.base τ values)

lemma Prepared.converted {values : List U64} : Prepared (.base .int []) (.base .uint values) where
  empty := rfl
  names := trivial
  type hc := .inr ⟨rfl, (ColumnValue.base.inj hc).1.symm⟩

namespace Computes

variable {es : List ColumnValue}

/-- An instruction's empty column is prepared for its column. -/
lemma prepared_emptyColumn (hcol : instr.column rt input n cols = some c)
    (hnamed : ∀ fields, instr = .record fields → KeysAscend fields)
    (hes : List.Forall₂ Prepared es cols) :
    ∃ e, ScalarProgram.emptyColumn input es instr = some e ∧ Prepared e c := by
  cases Instr.yields_of_column rt hcol with
  | input hd _ =>
    exact ⟨c.emptyLike, by rw [ScalarProgram.emptyColumn, hd, map_some], .emptyLike c⟩
  | @const τ v => exact ⟨.base τ [], rfl, .base⟩
  | @bin op a b l r _ hl hr hlr =>
    obtain ⟨e, he, hprep⟩ := forall₂_getElem? hes.flip hl
    obtain ⟨τ, ρ, f, xs, ys, results, hf, rfl, rfl, rfl, -⟩ := binColumn_inv rt hlr
    have hempty : ∀ σ, e = .base σ [] → ScalarProgram.emptyColumn input es (.bin op a b) =
        some (binopResultColumn op ⟨σ, .slice []⟩) := by
      rintro σ rfl
      simp [ScalarProgram.emptyColumn, he, ColumnValue.view]
    rcases hprep.type rfl with htype | ⟨htype, rfl⟩
    · exact ⟨_, hempty τ htype, by rw [BinOpKind.kernel_result hf]; exact .base⟩
    refine ⟨_, hempty .int htype, ?_⟩
    cases op with
    | arithmetic op =>
      cases hf
      exact .converted
    | compare op =>
      cases hf
      exact .base
    | boolLogic | concat => cases hf
  | @un op a l _ hl hlc =>
    obtain ⟨e, he, hprep⟩ := forall₂_getElem? hes.flip hl
    obtain ⟨τ, ρ, f, xs, results, hf, rfl, rfl, -⟩ := unColumn_inv rt hlc
    refine ⟨e, he, ?_⟩
    rcases hprep.type rfl with rfl | ⟨-, rfl⟩
    · cases op <;> cases τ <;> cases hf
      · exact .base
      · exact .base
      · exact .converted
    · cases op <;> cases hf
  | @record fields columns hcolumns =>
    have hfields := mapM_eq_some_iff_forall₂.mp hcolumns
    have hempty : ∀ f ∈ fields, ∃ e, es[f.2]? = some e ∧
        ∀ d, cols[f.2]? = some d → Prepared e d := by
      intro f hf
      obtain ⟨_, _, hfe⟩ := exists_of_forall₂_mem_right hfields.flip hf
      obtain ⟨d, hd, rfl⟩ := map_eq_some_iff.mp hfe
      obtain ⟨e, he, hed⟩ := forall₂_getElem? hes.flip hd
      exact ⟨e, he, fun d' hd' => mem_unique hd hd' ▸ hed⟩
    have : Nonempty ColumnValue := ⟨input⟩
    obtain ⟨e, hempties, hprep⟩ := exists_mapM_eq_map (·.1, ·) hempty
    have hasc : KeysAscend (fields.map fun f => (f.1, e f)) := by
      rw [KeysAscend, map_map]
      exact hnamed fields rfl
    refine ⟨.records (fields.map fun f => (f.1, e f)), ?_, .records
      (forall₂_map_left_iff.mpr (forall₂_imp_of_mem hfields fun f hf _ _ hfe => ?_))⟩
    · exact (congrArg (·.bind (some <| ColumnValue.records <| collect ·)) hempties).trans
        (by rw [bind_some, collect_of_keysAscend hasc])
    · obtain ⟨d, hd, rfl⟩ := map_eq_some_iff.mp hfe
      exact ⟨rfl, hprep f hf d hd⟩

/-- The empty columns of a program that computes its columns are prepared for them. -/
lemma exists_empties (h : Computes rt input n instrs cols) :
    ∃ es, (⟨instrs⟩ : ScalarProgram).empties input = some es ∧ List.Forall₂ Prepared es cols := by
  induction instrs using List.reverseRecOn generalizing cols with
  | nil =>
    obtain rfl := Option.some.inj h.columns
    exact ⟨[], rfl, .nil⟩
  | append_singleton instrs instr ih =>
    have hcolumns := h.columns
    rw [pushEach_concat] at hcolumns
    simp only [bind_eq_some_iff, Option.some.injEq] at hcolumns
    obtain ⟨cols, hcols, c, hc, rfl⟩ := hcolumns
    have hinit : Computes rt input n instrs cols :=
      ⟨hcols, h.rows, fun fields hf => h.named fields (mem_append_left _ hf)⟩
    obtain ⟨es, hes, hprep⟩ := ih hinit
    obtain ⟨e, he, hec⟩ := prepared_emptyColumn hc
      (fun fields hf => (h.named fields (by simp [hf])).1) hprep
    refine ⟨es ++ [e], ?_, rel_append hprep (.cons hec .nil)⟩
    rw [ScalarProgram.empties] at hes ⊢
    rw [pushEach_concat, hes, bind_some, he, bind_some]

variable {e : ColumnValue} (h : Computes rt input n instrs cols) (hlen : input.len = some n)
    (hlast : instrs.getLast? = some instr)
    (hresult : instr.isOperation = true ∨ ∃ fields, instr = .record fields)
    (hcol : cols.getLast? = some c) (hes : (⟨instrs⟩ : ScalarProgram).empties input = some es)
include h hlen hlast hresult hcol hes

/-- **Evaluation in blocks computes the whole column.**  `eval` appends the last instruction's
column to the empty column prepared for it. -/
lemma eval_eq (he : es.getLast? = some e) (hprep : Prepared e c) :
    (⟨instrs⟩ : ScalarProgram).eval rt input =
      (e.append c).bind fun out => if out.len = some n then some out else none := by
  have hnew : (Scratch.new input ⟨instrs⟩).Holds input n instrs cols 0 :=
    { input_eq := rfl
      length_eq := length_replicate
      block_le := Nat.zero_le n
      done := fun h => absurd h (Nat.not_lt_zero _)
      stale := fun _ hi _ _ => .inl (by
        rw [Scratch.new, getElem?_replicate, if_pos (List.getElem?_eq_some_iff.mp hi).1]) }
  have hrows : c.HasRows n := by
    rw [getLast?_eq_getElem?] at hcol
    exact h.hasRows hcol
  have hblocks := h.blocks_eq hlast hresult hcol (Nat.zero_le n) hnew hprep.names
  rw [Nat.sub_zero, hrows.slice_all] at hblocks
  rw [ScalarProgram.eval, ScalarProgram.emptyOutput]
  simp only [hlen, hes, he, bind_eq_bind, bind_some, hblocks]
  refine congrArg (Option.bind _) (funext fun out => ?_)
  by_cases hout : out.len = some n <;> simp [guard, hout]

/-- Where the prepared column has the column's shape, `eval` returns the column. -/
lemma eval_eq_some (he : es.getLast? = some c.emptyLike) :
    (⟨instrs⟩ : ScalarProgram).eval rt input = some c := by
  have hclen : c.len = some n := by
    rw [getLast?_eq_getElem?] at hcol
    exact h.len_eq hcol
  rw [h.eval_eq hlen hlast hresult hcol hes he (.emptyLike c), c.append_emptyLike,
    bind_some, if_pos hclen]

/-- Where it has not, `eval` panics. -/
lemma eval_eq_none (he : es.getLast? = some e) (hprep : Prepared e c) (hne : e ≠ c.emptyLike) :
    (⟨instrs⟩ : ScalarProgram).eval rt input = none := by
  rw [h.eval_eq hlen hlast hresult hcol hes he hprep]
  cases happend : e.append c with
  | none => rfl
  | some out => exact absurd (ColumnValue.eq_emptyLike_of_append hprep.empty happend) hne

end Computes

end Cambra
