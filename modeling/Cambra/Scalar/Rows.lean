import Cambra.Lib.OptionSpec
import Cambra.Scalar.Column

/-!
# The rows of a column

A column has `n` rows when every column inside it has (`HasRows`).  `slice` is a range of rows, and
`append` puts the rows of one column after another's, where the two agree on their record fields and
on the types of their leaves.

Over columns of a base type, the kernels are functions of the values (`binColumn`, `unColumn`): a
kernel applied to views appends what the function gives (`applyBinopViews_eq`,
`applyUnaryopViews_eq`), and a range of rows goes through the function (`binColumn_slice`,
`unColumn_slice`).  This is all an evaluation in blocks needs to know of a kernel.
-/

namespace Cambra

open List
open Option hiding map_map

/-! ## Traversals of a range -/

variable {n : ℕ} {c l r : ColumnValue} {v : ColumnView} {op : BinOpKind} {τ : ScalarType}

section Traversals

variable {α β : Type} {f : α → Option β} {xs : List α} {ys : List β}

/-- A traversal of a range is the range of the traversal. -/
lemma mapM_range (h : xs.mapM f = some ys) (a k : ℕ) :
    ((xs.drop a).take k).mapM f = some ((ys.drop a).take k) := by
  rw [mapM_eq_some_iff_forall₂] at h ⊢
  exact forall₂_take k (forall₂_drop a h)

lemma length_of_mapM (h : xs.mapM f = some ys) : ys.length = xs.length :=
  (mapM_eq_some_iff_forall₂.mp h).length_eq.symm

lemma mapM_replicate {a : α} (hn : 0 < n) :
    (List.replicate n a).mapM f = (f a).map (List.replicate n) := by
  cases hf : f a with
  | none =>
    obtain ⟨m, rfl⟩ := Nat.exists_eq_succ_of_ne_zero hn.ne'
    simp [replicate_succ, mapM_cons, hf]
  | some b =>
    rw [map_some, mapM_eq_some_iff_forall₂]
    exact forall₂_iff_get.mpr ⟨by simp, by simp [hf]⟩

end Traversals

namespace View

variable {α β : Type}

lemma length_values (v : View α) : v.values.length = v.len := by cases v <;> simp [values, len]

lemma map_eq (f : α → Option β) (v : View α) : v.map f = v.values.mapM f := by
  cases v with
  | slice values => rfl
  | constant a n =>
    rw [map, values]
    split_ifs with h
    · rw [mapM_replicate h]
    · obtain rfl : n = 0 := by omega
      rfl

lemma zipWith_eq (f : α → α → Option β) {l r : View α} (h : l.len = r.len) :
    l.zipWith f r = (l.values.zip r.values).mapM fun x => f x.1 x.2 := by
  cases l with
  | slice l =>
    cases r with
    | slice r => rfl
    | constant b n =>
      obtain rfl : l.length = n := h
      have hzip : l.zip (List.replicate l.length b) = l.map (·, b) := by
        induction l with
        | nil => rfl
        | cons a l ih => simpa [replicate_succ] using ih
      rw [zipWith, values, values, hzip, mapM_map]
      rfl
  | constant a n =>
    cases r with
    | slice r =>
      obtain rfl : n = r.length := h
      have hzip : (List.replicate r.length a).zip r = r.map (a, ·) := by
        induction r with
        | nil => rfl
        | cons b r ih => simpa [replicate_succ] using ih
      rw [zipWith, values, values, hzip, mapM_map]
      rfl
    | constant b m =>
      obtain rfl : n = m := h
      rw [zipWith, values, values, zip_replicate']
      split_ifs with h
      · rw [mapM_replicate h]
      · obtain rfl : n = 0 := by omega
        rfl

lemma range_eq {v : View α} {start stop : ℕ} (h : start ≤ stop) (hstop : stop ≤ v.len) :
    ∃ w, v.range start stop = some w ∧ w.len = stop - start ∧
      w.values = (v.values.drop start).take (stop - start) := by
  cases v with
  | slice values =>
    have hlen : stop ≤ values.length := hstop
    refine ⟨_, if_pos ⟨h, hlen⟩, ?_, rfl⟩
    simp only [len, length_take, length_drop]
    omega
  | constant a n =>
    have hlen : stop ≤ n := hstop
    refine ⟨_, if_pos hlen, rfl, ?_⟩
    simp only [values, drop_replicate, take_replicate]
    congr 1
    omega

end View

/-! ## Induction over a column -/

namespace ColumnValue

lemma sizeOf_field_lt {fields : List (String × ColumnValue)} {e : String × ColumnValue}
    (h : e ∈ fields) : sizeOf e.2 < sizeOf fields := by
  obtain ⟨k, c⟩ := e
  have := sizeOf_lt_of_mem h
  simp only [Prod.mk.sizeOf_spec] at this ⊢
  omega

/-- Induction over a column and the columns of its fields. -/
@[elab_as_elim, induction_eliminator]
theorem induction {motive : ColumnValue → Prop} (units : ∀ n, motive (.units n))
    (base : ∀ τ values, motive (.base τ values))
    (records : ∀ fields, (∀ e ∈ fields, motive e.2) → motive (.records fields)) : ∀ c, motive c
  | .units n => units n
  | .base τ values => base τ values
  | .records fields => records fields fun e _ => induction units base records e.2
termination_by c => sizeOf c
decreasing_by
  have := sizeOf_field_lt ‹e ∈ fields›
  simp only [ColumnValue.records.sizeOf_spec]
  omega

lemma mapFields_eq (f : (τ : ScalarType) → List τ.Val → List τ.Val) (g : ℕ → ℕ)
    (fields : List (String × ColumnValue)) :
    mapFields f g fields = fields.map fun e => (e.1, e.2.mapLeaves f g) := by
  induction fields with
  | nil => rfl
  | cons e fields ih => simp [mapFields, ih]

/-- The column has `n` rows. -/
inductive HasRows (n : ℕ) : ColumnValue → Prop
  | units : HasRows n (.units n)
  | base {τ : ScalarType} {values : List τ.Val} (h : values.length = n) : HasRows n (.base τ values)
  | records {fields : List (String × ColumnValue)} (h : ∀ e ∈ fields, HasRows n e.2) :
      HasRows n (.records fields)

lemma HasRows.len_eq {m : ℕ} (h : c.HasRows n) (hlen : c.len = some m) : m = n := by
  induction h with
  | units => exact (Option.some.inj hlen).symm
  | base h => exact (Option.some.inj hlen).symm.trans h
  | @records fields _ ih =>
    cases fields with
    | nil => cases hlen
    | cons e fields =>
      rw [len] at hlen
      exact ih e (by simp) hlen

/-! ## Ranges of rows -/

/-- The `k` rows from `a` on. -/
def slice (a k : ℕ) : ColumnValue → ColumnValue :=
  mapLeaves (fun _ values => (values.drop a).take k) (fun n => min k (n - a))

@[simp] lemma slice_units (a k n : ℕ) : (units n).slice a k = .units (min k (n - a)) := rfl

@[simp] lemma slice_base (a k : ℕ) (τ : ScalarType) (values : List τ.Val) :
    (base τ values).slice a k = .base τ ((values.drop a).take k) := rfl

lemma slice_records (a k : ℕ) (fields : List (String × ColumnValue)) :
    (records fields).slice a k = .records (fields.map fun e => (e.1, e.2.slice a k)) := by
  rw [slice, mapLeaves, mapFields_eq]

@[simp] lemma emptyLike_units (n : ℕ) : (units n).emptyLike = .units 0 := rfl

@[simp] lemma emptyLike_base (τ : ScalarType) (values : List τ.Val) :
    (base τ values).emptyLike = .base τ [] := rfl

lemma emptyLike_records (fields : List (String × ColumnValue)) :
    (records fields).emptyLike = .records (fields.map fun e => (e.1, e.2.emptyLike)) := by
  rw [emptyLike, mapLeaves, mapFields_eq]

lemma HasRows.slice_all (h : c.HasRows n) : c.slice 0 n = c := by
  induction h with
  | units => simp
  | base h => simp [← h]
  | @records fields _ ih =>
    rw [slice_records]
    congr 1
    calc fields.map (fun e => (e.1, e.2.slice 0 n))
        = fields.map id := map_congr_left fun e he => by rw [ih e he]; rfl
      _ = fields := map_id fields

variable {a k : ℕ} {out : ColumnValue}

lemma HasRows.slice (h : c.HasRows n) (hak : a + k ≤ n) : (c.slice a k).HasRows k := by
  induction h with
  | units =>
    rw [slice_units, Nat.min_eq_left (by omega)]
    exact .units
  | base h => exact .base (by simp only [length_take, length_drop]; omega)
  | records _ ih =>
    rw [slice_records]
    refine .records fun e he => ?_
    obtain ⟨d, hd, rfl⟩ := mem_map.mp he
    exact ih d hd

/-- No rows of a column are an empty column of its shape. -/
lemma slice_zero (a : ℕ) (c : ColumnValue) : c.slice a 0 = c.emptyLike := by
  have hunits : (fun n => min 0 (n - a)) = fun _ => 0 := funext fun n => Nat.zero_min _
  rw [slice, emptyLike, hunits]
  rfl

lemma emptyLike_slice (a k : ℕ) (c : ColumnValue) : (c.slice a k).emptyLike = c.emptyLike := by
  induction c with
  | units | base => rfl
  | records fields ih =>
    rw [slice_records, emptyLike_records, emptyLike_records, map_map]
    congr 1
    exact map_congr_left fun e he => Prod.ext rfl (ih e he)

/-! ## Appending rows -/

mutual

/-- The rows of two columns of one shape, one after the other. -/
def append : ColumnValue → ColumnValue → Option ColumnValue
  | .units m, .units n => some (.units (m + n))
  | .base τ xs, .base σ ys => if h : σ = τ then some (.base τ (xs ++ h ▸ ys)) else none
  | .records fs, .records gs => (appendFields fs gs).map .records
  | _, _ => none

/-- `append` at each field. -/
def appendFields : List (String × ColumnValue) → List (String × ColumnValue) →
    Option (List (String × ColumnValue))
  | [], [] => some []
  | (k, c) :: fs, (k', d) :: gs =>
    if k = k' then do
      let e ← append c d
      let es ← appendFields fs gs
      some ((k, e) :: es)
    else none
  | _, _ => none

end

mutual

/-- The columns have the same record fields, down to columns that are no records. -/
def SameNames : ColumnValue → ColumnValue → Prop
  | .records fs, .records gs => SameFields fs gs
  | .records _, _ => False
  | _, .records _ => False
  | _, _ => True

/-- `SameNames` field by field. -/
def SameFields : List (String × ColumnValue) → List (String × ColumnValue) → Prop
  | [], [] => True
  | (k, c) :: fs, (k', d) :: gs => k = k' ∧ SameNames c d ∧ SameFields fs gs
  | _, _ => False

end

lemma sameNames_emptyLike (c : ColumnValue) : SameNames c.emptyLike c := by
  induction c with
  | units | base => trivial
  | records fields ih =>
    rw [emptyLike_records, SameNames]
    induction fields with
    | nil => trivial
    | cons e fields ihf =>
      exact ⟨rfl, ih e (by simp), ihf fun d hd => ih d (mem_cons_of_mem e hd)⟩

lemma emptyLike_emptyLike (c : ColumnValue) : c.emptyLike.emptyLike = c.emptyLike := by
  have := emptyLike_slice 0 0 c
  rwa [slice_zero] at this

lemma SameFields.keys_eq : ∀ {fs gs : List (String × ColumnValue)}, SameFields fs gs →
    fs.map (·.1) = gs.map (·.1)
  | [], [], _ => rfl
  | _ :: _, _ :: _, ⟨hkey, _, hrest⟩ => congrArg₂ (· :: ·) hkey hrest.keys_eq

lemma sameNames_slice : SameNames out (c.slice a k) ↔ SameNames out c := by
  induction c generalizing out with
  | units | base => cases out <;> exact Iff.rfl
  | records gs ih =>
    rw [slice_records]
    cases out with
    | units | base => exact Iff.rfl
    | records fs =>
      rw [SameNames, SameNames]
      induction gs generalizing fs with
      | nil => exact Iff.rfl
      | cons g gs ihg =>
        cases fs with
        | nil => exact Iff.rfl
        | cons f fs =>
          exact and_congr Iff.rfl (and_congr (ih g (by simp))
            (ihg (fun e he => ih e (mem_cons_of_mem g he)) fs))

/-- Two ranges of rows, one after the other, are appended as one. -/
lemma append_slices (a k l : ℕ) (h : SameNames out c) :
    ((out.append (c.slice a k)).bind fun out => out.append (c.slice (a + k) l)) =
      out.append (c.slice a (k + l)) := by
  induction c generalizing out with
  | units n =>
    cases out with
    | units m =>
      simp only [slice_units, append, bind_some, Option.some.injEq, units.injEq]
      omega
    | base | records => rfl
  | base σ ys =>
    cases out with
    | units | records => rfl
    | base τ xs =>
      simp only [slice_base, append]
      by_cases hτ : σ = τ
      · subst hτ
        simp only [dite_true, bind_some, append, Option.some.injEq, base.injEq, heq_eq_eq,
          true_and, append_assoc, append_cancel_left_eq]
        rw [take_add, drop_drop]
      · simp [hτ]
  | records gs ih =>
    cases out with
    | units | base => rfl
    | records fs =>
      rw [slice_records, slice_records, slice_records, append, append]
      rw [SameNames] at h
      suffices hfields : ((appendFields fs (gs.map fun e => (e.1, e.2.slice a k))).bind fun es =>
          appendFields es (gs.map fun e => (e.1, e.2.slice (a + k) l))) =
            appendFields fs (gs.map fun e => (e.1, e.2.slice a (k + l))) by
        rw [← hfields]
        cases appendFields fs (gs.map fun e => (e.1, e.2.slice a k)) with
        | none | some => rfl
      induction gs generalizing fs with
      | nil =>
        cases fs with
        | nil => rfl
        | cons f fs => exact h.elim
      | cons g gs ihg =>
        cases fs with
        | nil => exact h.elim
        | cons f fs =>
          obtain ⟨hkey, hnames, hrest⟩ := h
          have hfirst := ih g (by simp) hnames
          have hothers := ihg (fun e he => ih e (mem_cons_of_mem g he)) fs hrest
          simp only [map_cons, appendFields, hkey, if_true]
          rw [← hfirst, ← hothers]
          cases f.2.append (g.2.slice a k) with
          | none => rfl
          | some e =>
            cases appendFields fs (gs.map fun e => (e.1, e.2.slice a k)) with
            | none => cases hn : e.append (g.2.slice (a + k) l) <;> simp [hn]
            | some es => simp [appendFields]

lemma append_emptyLike (c : ColumnValue) : c.emptyLike.append c = some c := by
  induction c with
  | units | base => simp [append]
  | records fields ih =>
    rw [emptyLike_records, append]
    suffices h : appendFields (fields.map fun e => (e.1, e.2.emptyLike)) fields = some fields by
      rw [h, map_some]
    induction fields with
    | nil => rfl
    | cons e fields ihf =>
      have hrest := ihf fun d hd => ih d (mem_cons_of_mem e hd)
      simp [appendFields, ih e (by simp), hrest]

/-- Only the empty column of its shape takes a column's rows, of the empty columns with its record
fields. -/
lemma eq_emptyLike_of_append {e : ColumnValue} (hempty : e.emptyLike = e)
    (h : e.append c = some out) : e = c.emptyLike := by
  induction c generalizing e out with
  | units n =>
    cases e with
    | units m => exact hempty.symm
    | base | records => cases h
  | base σ ys =>
    cases e with
    | units | records => cases h
    | base τ xs =>
      rw [append] at h
      split_ifs at h with hτ
      subst hτ
      exact hempty.symm
  | records gs ih =>
    cases e with
    | units | base => cases h
    | records fs =>
      rw [append] at h
      obtain ⟨es, hes, -⟩ := map_eq_some_iff.mp h
      rw [emptyLike_records, records.injEq] at hempty ⊢
      clear h
      induction gs generalizing fs es with
      | nil =>
        cases fs with
        | nil => rfl
        | cons f fs => cases hes
      | cons g gs ihg =>
        cases fs with
        | nil => cases hes
        | cons f fs =>
          simp only [map_cons, List.cons.injEq] at hempty ⊢
          rw [appendFields] at hes
          split_ifs at hes with hkey
          simp only [bind_eq_bind, bind_eq_some_iff] at hes
          obtain ⟨d, hd, ds, hds, -⟩ := hes
          have hfirst := ih g (by simp) (Prod.ext_iff.mp hempty.1).2 hd
          refine ⟨Prod.ext hkey hfirst, ?_⟩
          exact ihg (fun e he => ih e (mem_cons_of_mem g he)) fs hempty.2 ds hds

lemma SameNames.append {out' : ColumnValue} (h : SameNames out c)
    (happend : out.append (c.slice a k) = some out') : SameNames out' c := by
  induction c generalizing out out' with
  | units n =>
    cases out with
    | units m =>
      cases happend
      trivial
    | base | records => cases happend
  | base σ ys =>
    cases out with
    | units | records => cases happend
    | base τ xs =>
      rw [slice_base, ColumnValue.append] at happend
      split_ifs at happend with hτ
      cases happend
      trivial
  | records gs ih =>
    cases out with
    | units | base => exact h.elim
    | records fs =>
      rw [slice_records, ColumnValue.append] at happend
      obtain ⟨es, hes, rfl⟩ := map_eq_some_iff.mp happend
      rw [SameNames] at h ⊢
      clear happend
      induction gs generalizing fs es with
      | nil =>
        cases fs with
        | nil =>
          cases hes
          trivial
        | cons f fs => exact h.elim
      | cons g gs ihg =>
        cases fs with
        | nil => exact h.elim
        | cons f fs =>
          obtain ⟨hkey, hnames, hrest⟩ := h
          rw [map_cons, appendFields, if_pos hkey] at hes
          simp only [bind_eq_bind, bind_eq_some_iff, Option.some.injEq] at hes
          obtain ⟨d, hd, ds, hds, rfl⟩ := hes
          exact ⟨hkey, ih g (by simp) hnames hd,
            ihg (fun e he => ih e (mem_cons_of_mem g he)) fs hrest ds hds⟩

end ColumnValue

/-! ## The kernels as functions of the values -/

/-- The column a view shows. -/
def ColumnView.toBase (v : ColumnView) : ColumnValue := .base v.type v.view.values

lemma ColumnValue.extendFromView_eq (c : ColumnValue) (v : ColumnView) :
    c.extendFromView v = c.append v.toBase := by
  cases c with
  | units | records | base => rfl

lemma ColumnView.range_toBase {start stop : ℕ} (h : start ≤ stop) (hstop : stop ≤ v.len) :
    ∃ w, v.range start stop = some w ∧ w.len = stop - start ∧
      w.toBase = v.toBase.slice start (stop - start) := by
  obtain ⟨w, hw, hlen, hvalues⟩ := View.range_eq h hstop
  refine ⟨⟨v.type, w⟩, by rw [ColumnView.range, hw, map_some], hlen, ?_⟩
  rw [ColumnView.toBase, ColumnView.toBase, hvalues, ColumnValue.slice_base]

variable (rt : Runtime)

/-- A binary operation on the values of two columns of a base type. -/
def binColumn (op : BinOpKind) : ColumnValue → ColumnValue → Option ColumnValue
  | .base τ xs, .base σ ys =>
    if h : σ = τ then do
      let ⟨ρ, f⟩ ← op.kernel rt.profile τ
      let results ← (xs.zip (h ▸ ys)).mapM fun x => f x.1 x.2
      some (.base ρ results)
    else none
  | _, _ => none

/-- A unary operation on the values of a column of a base type. -/
def unColumn (op : UnaryOpKind) : ColumnValue → Option ColumnValue
  | .base τ xs => do
    let ⟨ρ, f⟩ ← op.kernel rt.profile τ
    let results ← xs.mapM f
    some (.base ρ results)
  | _ => none

lemma ColumnView.range_all (v : ColumnView) : ∃ w : View v.type.Val,
    v.range 0 v.len = some ⟨v.type, w⟩ ∧ w.len = v.len ∧ w.values = v.view.values := by
  obtain ⟨w, hw, hlen, hvalues⟩ := View.range_eq (v := v.view) (Nat.zero_le v.len) (Nat.le_refl _)
  refine ⟨w, by rw [ColumnView.range, hw, map_some], hlen, ?_⟩
  rw [hvalues, drop_zero, Nat.sub_zero, ColumnView.len, ← View.length_values, take_length]

lemma applyBinopViews_eq (op : BinOpKind) {l r : ColumnView} (h : l.len = r.len)
    (out : ColumnValue) :
    applyBinopViews rt op l r out = (binColumn rt op l.toBase r.toBase).bind out.append := by
  obtain ⟨l', hl, hllen, hlvalues⟩ := l.range_all
  obtain ⟨r', hr, hrlen, hrvalues⟩ := r.range_all
  obtain ⟨τ, lv⟩ := l
  obtain ⟨σ, rv⟩ := r
  rw [applyBinopViews, ← h, Nat.min_self, hl, h, hr]
  simp only [bind_eq_bind, bind_some, ColumnView.toBase, binColumn]
  by_cases hτ : σ = τ
  · subst hτ
    simp only [dite_true]
    cases op.kernel rt.profile σ with
    | none => rfl
    | some kernel =>
      obtain ⟨ρ, f⟩ := kernel
      have hlen : l'.len = r'.len := by rw [hllen, hrlen, h]
      simp only [bind_some]
      rw [View.zipWith_eq f hlen, hlvalues, hrvalues, bind_assoc]
      simp [ColumnValue.extendFromView_eq, ColumnView.toBase, View.values]
  · simp [hτ]

lemma applyUnaryopViews_eq (op : UnaryOpKind) (v : ColumnView) (out : ColumnValue) :
    applyUnaryopViews rt op v out = (unColumn rt op v.toBase).bind out.append := by
  rw [applyUnaryopViews, ColumnView.toBase, unColumn]
  cases op.kernel rt.profile v.type with
  | none => rfl
  | some kernel =>
    obtain ⟨ρ, f⟩ := kernel
    simp only [bind_eq_bind, bind_some]
    rw [View.map_eq, bind_assoc]
    simp [ColumnValue.extendFromView_eq, ColumnView.toBase, View.values]

lemma binColumn_inv (h : binColumn rt op l r = some c) :
    ∃ (τ ρ : ScalarType) (f : τ.Val → τ.Val → Option ρ.Val) (xs ys : List τ.Val)
      (results : List ρ.Val), op.kernel rt.profile τ = some ⟨ρ, f⟩ ∧ l = .base τ xs ∧
      r = .base τ ys ∧ c = .base ρ results ∧
      (xs.zip ys).mapM (fun x => f x.1 x.2) = some results := by
  cases l with
  | units | records => cases h
  | base τ xs =>
    cases r with
    | units | records => cases h
    | base σ ys =>
      rw [binColumn] at h
      split_ifs at h with hτ
      subst hτ
      simp only [bind_eq_bind, bind_eq_some_iff, Option.some.injEq] at h
      obtain ⟨⟨ρ, f⟩, hf, results, hresults, rfl⟩ := h
      exact ⟨σ, ρ, f, xs, ys, results, hf, rfl, rfl, rfl, hresults⟩

lemma unColumn_inv {op : UnaryOpKind} (h : unColumn rt op l = some c) :
    ∃ (τ ρ : ScalarType) (f : τ.Val → Option ρ.Val) (xs : List τ.Val) (results : List ρ.Val),
      op.kernel rt.profile τ = some ⟨ρ, f⟩ ∧ l = .base τ xs ∧ c = .base ρ results ∧
      xs.mapM f = some results := by
  cases l with
  | units | records => cases h
  | base τ xs =>
    simp only [unColumn, bind_eq_bind, bind_eq_some_iff, Option.some.injEq] at h
    obtain ⟨⟨ρ, f⟩, hf, results, hresults, rfl⟩ := h
    exact ⟨τ, ρ, f, xs, results, hf, rfl, rfl, hresults⟩

lemma BinOpKind.kernel_result {p : Profile} {ρ : ScalarType} {f : τ.Val → τ.Val → Option ρ.Val}
    (h : op.kernel p τ = some ⟨ρ, f⟩) (v : View τ.Val) :
    binopResultColumn op ⟨τ, v⟩ = .base ρ [] := by cases op <;> cases τ <;> cases h <;> rfl

lemma UnaryOpKind.kernel_result {p : Profile} {op : UnaryOpKind} {ρ : ScalarType}
    {f : τ.Val → Option ρ.Val} (h : op.kernel p τ = some ⟨ρ, f⟩) (v : View τ.Val) :
    unaryopResultColumn op ⟨τ, v⟩ = .base ρ [] := by cases op <;> cases τ <;> cases h <;> rfl

lemma binColumn_slice (h : binColumn rt op l r = some c) (a k : ℕ) :
    binColumn rt op (l.slice a k) (r.slice a k) = some (c.slice a k) := by
  obtain ⟨τ, ρ, f, xs, ys, results, hf, rfl, rfl, rfl, hresults⟩ := binColumn_inv rt h
  have hrange := mapM_range hresults a k
  rw [List.zip, drop_zipWith, take_zipWith] at hrange
  simp [binColumn, hf, List.zip, hrange]

lemma unColumn_slice {op : UnaryOpKind} (h : unColumn rt op l = some c) (a k : ℕ) :
    unColumn rt op (l.slice a k) = some (c.slice a k) := by
  obtain ⟨τ, ρ, f, xs, results, hf, rfl, rfl, hresults⟩ := unColumn_inv rt h
  simp [unColumn, hf, mapM_range hresults a k]

lemma ColumnView.eq_of_toBase {xs : List τ.Val} (h : v.toBase = .base τ xs) :
    ∃ w : View τ.Val, v = ⟨τ, w⟩ := by
  obtain ⟨σ, w⟩ := v
  obtain ⟨rfl, -⟩ := ColumnValue.base.inj h
  exact ⟨w, rfl⟩

/-- What a binary operation gives: a column of the result column's type, a row for each of the
operands'. -/
lemma binColumn_spec (h : binColumn rt op l r = some c) (hl : l.HasRows n) (hr : r.HasRows n) :
    c.HasRows n ∧ l.view.isSome ∧ r.view.isSome ∧ c.view.isSome ∧
      ∀ v : ColumnView, v.toBase = l → binopResultColumn op v = c.emptyLike := by
  obtain ⟨τ, ρ, f, xs, ys, results, hf, rfl, rfl, rfl, hresults⟩ := binColumn_inv rt h
  cases hl with
  | base hx =>
    cases hr with
    | base hy =>
      refine ⟨.base ?_, rfl, rfl, rfl, fun v hv => ?_⟩
      · rw [length_of_mapM hresults, length_zip, hx, hy, Nat.min_self]
      · obtain ⟨w, rfl⟩ := ColumnView.eq_of_toBase hv
        exact BinOpKind.kernel_result hf w

/-- What a unary operation gives: a column of the result column's type, a row for each of the
operand's. -/
lemma unColumn_spec {op : UnaryOpKind} (h : unColumn rt op l = some c) (hl : l.HasRows n) :
    c.HasRows n ∧ l.view.isSome ∧ c.view.isSome ∧
      ∀ v : ColumnView, v.toBase = l → unaryopResultColumn op v = c.emptyLike := by
  obtain ⟨τ, ρ, f, xs, results, hf, rfl, rfl, hresults⟩ := unColumn_inv rt h
  cases hl with
  | base hx =>
    refine ⟨.base ?_, rfl, rfl, fun v hv => ?_⟩
    · rw [length_of_mapM hresults, hx]
    · obtain ⟨w, rfl⟩ := ColumnView.eq_of_toBase hv
      exact UnaryOpKind.kernel_result hf w

/-- Over two columns of a base type and one length, a binary operation is a function of the
values. -/
lemma applyBinopColumn_eq {w : ColumnView} (hv : l.view = some v) (hw : r.view = some w)
    (hl : l.HasRows n) (hr : r.HasRows n) : applyBinopColumn rt op l r = binColumn rt op l r := by
  cases hl with
  | units | records => cases hv
  | @base τ xs hx =>
    cases hr with
    | units | records => cases hw
    | @base σ ys hy =>
      have hlen : (⟨τ, .slice xs⟩ : ColumnView).len = (⟨σ, .slice ys⟩ : ColumnView).len :=
        hx.trans hy.symm
      rw [applyBinopColumn, applyBinopInto]
      · simp only [ColumnValue.view, bind_eq_bind, bind_some, binopResultColumnOf]
        rw [applyBinopViews_eq rt op hlen]
        cases hc : binColumn rt op (.base τ xs) (.base σ ys) with
        | none => simp [ColumnView.toBase, View.values, hc]
        | some c =>
          have hresult := (binColumn_spec rt hc (.base hx) (.base hy)).2.2.2.2 ⟨τ, .slice xs⟩ rfl
          simp only [ColumnView.toBase, View.values, hc, bind_some, hresult]
          exact c.append_emptyLike
      · simp

/-- Over a column of a base type, a unary operation is a function of the values. -/
lemma applyUnaryopColumn_eq {op : UnaryOpKind} (hc : c.HasRows n) :
    applyUnaryopColumn rt op c = unColumn rt op c := by
  cases hc with
  | units | records => rfl
  | @base τ xs hx =>
    rw [applyUnaryopColumn]
    simp only [ColumnValue.view, bind_eq_bind, bind_some]
    rw [applyUnaryopViews_eq]
    cases hr : unColumn rt op (.base τ xs) with
    | none => simp [ColumnView.toBase, View.values, hr]
    | some r =>
      have hresult := (unColumn_spec rt hr (.base hx)).2.2.2 ⟨τ, .slice xs⟩ rfl
      simp only [ColumnView.toBase, View.values, hr, bind_some, hresult]
      exact r.append_emptyLike

end Cambra
