import Cambra.Reshape.Places
import Cambra.Tiling.Position

/-!
# Key order and the language's order

Keys are sorted and windows cut by `partial_cmp`, which compares two records by the names of their
fields.  The comparison operators decide by `compare_values`, which compares two tuples by the
positions their field names spell.  A tuple's fields are named `_0`, `_1`, …, so the two part where
the names are not in the order of the positions: `_10` is before `_2`.

* `partialCmp_tuple`, `compareValues_tuple`: both scan for the first field that decides, one in the
  order of `byName`, the other in the order of positions.
* `OrderedExtent.keyOrder_iff`: over the values of an extent the language orders, key order is total
  and transitive, and it is the language's order of the values and of their order keys exactly where
  any two fields of a tuple that vary are named in order.
* `OrderedExtent.compareValues_eleven`: a tuple of eleven fields is too long for that.
-/

namespace Cambra

open List hiding getElem?_eq_some_iff

namespace Value

/-! ## The language's order -/

/-- `parse::<usize>`: an optional sign and decimal digits that fit a word. -/
def parseUsize (s : List Char) : Option ℕ :=
  let digits := if s.head? = some '+' then s.tail else s
  let value := Nat.ofDigitChars 10 digits 0
  if digits ≠ [] ∧ digits.all Char.isDigit ∧ value < 2 ^ 64 then some value else none

/-- The position a tuple's field name spells. -/
def position (name : String) : Option ℕ :=
  match name.toList with
  | '_' :: digits => parseUsize digits
  | _ => none

/-- A record's fields by the positions their names spell, in order. -/
def positions (fields : List (String × Value)) : Option (List (ℕ × Value)) := do
  let out ← fields.mapM fun kv => do return (← position kv.1, kv.2)
  return out.mergeSort fun a b => a.1 ≤ b.1

lemma sizeOf_lt_of_mem_positions {fields : List (String × Value)} {out : List (ℕ × Value)}
    (h : positions fields = some out) {iv : ℕ × Value} (hiv : iv ∈ out) :
    sizeOf iv.2 < sizeOf (Value.record fields) := by
  obtain ⟨read, hread, h⟩ := Option.bind_eq_some_iff.mp h
  cases h
  obtain ⟨kv, hkv, h⟩ := exists_of_forall₂_mem_right (mapM_eq_some_iff_forall₂.mp hread)
    (mem_mergeSort.mp hiv)
  obtain ⟨i, -, h⟩ := Option.bind_eq_some_iff.mp h
  cases h
  have hlt := sizeOf_snd_lt_of_mem hkv
  change sizeOf kv.2 < _
  rw [record.sizeOf_spec]
  omega

/-- The first comparison that is not `Equal` decides. -/
def firstDecided : List (Option Ordering) → Option Ordering
  | [] => some .eq
  | some .eq :: rest => firstDecided rest
  | other :: _ => other

/-- The order by which the language's comparisons decide. -/
def compareValues : Value → Value → Option Ordering
  | .record x, .record y =>
    match _hx : positions x, positions y with
    | some xs, some ys =>
      if xs.length ≠ ys.length then none
      else firstDecided ((xs.zip ys).attach.map fun lr => compareValues lr.1.1.2 lr.1.2.2)
    | _, _ => none
  | a, b => partialCmp a b
termination_by a => sizeOf a
decreasing_by exact sizeOf_lt_of_mem_positions _hx (of_mem_zip lr.2).1

section Decided

variable {ι : Type} {c : ι → Option Ordering} {r : ι → ι → Prop}

/-- In a list sorted by `r`, the first element that is decided is before all that are. -/
lemma firstDecided_cases : ∀ {l : List ι}, l.Pairwise r →
    (firstDecided (l.map c) = some .eq ∧ ∀ i ∈ l, c i = some .eq) ∨
      ∃ i ∈ l, firstDecided (l.map c) = c i ∧ c i ≠ some .eq ∧
        ∀ j ∈ l, c j ≠ some .eq → j = i ∨ r i j
  | [], _ => .inl ⟨rfl, by simp⟩
  | i :: l, h => by
    obtain ⟨hi, hl⟩ := pairwise_cons.mp h
    by_cases hc : c i = some .eq
    · have hfirst : firstDecided ((i :: l).map c) = firstDecided (l.map c) := by
        rw [map_cons, hc, firstDecided]
      rcases firstDecided_cases hl with ⟨heq, hall⟩ | ⟨j, hj, heq, hne, hbefore⟩
      · exact .inl ⟨hfirst.trans heq, by simpa [hc] using hall⟩
      · exact .inr ⟨j, .tail _ hj, hfirst.trans heq, hne, by simpa [hc] using hbefore⟩
    · refine .inr ⟨i, .head _, ?_, hc, fun j hj _ => ?_⟩
      · rw [map_cons]
        rcases hci : c i with _ | _ | _ | _ <;> simp_all [firstDecided]
      · exact (List.mem_cons.mp hj).imp_right (hi j)

variable {l : List ι} {i : ι}

lemma firstDecided_eq (hl : l.Pairwise r) (hi : i ∈ l)
    (h : ∀ m ∈ l, c m ≠ some .eq → m = i ∨ c i ≠ some .eq ∧ ¬ r m i) :
    firstDecided (l.map c) = c i := by
  rcases firstDecided_cases hl with ⟨heq, hall⟩ | ⟨m, hm, heq, hne, hfirst⟩
  · rw [heq, hall i hi]
  · rcases h m hm hne with rfl | ⟨hne', hr⟩
    · exact heq
    · rcases hfirst i hi hne' with rfl | hr'
      · exact heq
      · exact absurd hr' hr

lemma firstDecided_eq_eq (h : ∀ i ∈ l, c i = some .eq) : firstDecided (l.map c) = some .eq := by
  rcases firstDecided_cases (pairwise_of_forall fun _ _ => trivial)
    with ⟨heq, -⟩ | ⟨i, hi, -, hne, -⟩
  · exact heq
  · exact absurd (h i hi) hne

end Decided

/-! ## Tuples -/

/-- The tuple of `f 0`, …, `f (n - 1)`. -/
abbrev tuple (n : ℕ) (f : ℕ → Value) : Value :=
  .record (collect (tupleFields ((List.range n).map f)))

/-- The positions of a tuple of `n` fields in the order of their names. -/
def byName (n : ℕ) : List ℕ := (collect (tupleFields (List.range n))).map (·.2)

variable {n : ℕ} {f g : ℕ → Value}

lemma collect_tupleFields {α : Type} (f : ℕ → α) :
    collect (tupleFields ((List.range n).map f)) = (byName n).map fun i => (tupleField i, f i) := by
  have hmap : tupleFields ((List.range n).map f) =
      (tupleFields (List.range n)).map fun e => (e.1, f e.2) := by
    simp [tupleFields, zipIdx_map, Function.comp_def]
  rw [hmap, ← collect_map, byName, map_map]
  refine map_congr_left fun e he => ?_
  obtain ⟨i, hi, hname⟩ := mem_collect_tupleFields.mp (show (e.1, e.2) ∈ _ from he)
  obtain ⟨hlt, heq⟩ := List.getElem?_eq_some_iff.mp hi
  rw [getElem_range] at heq
  simp [hname, heq]

lemma byName_sorted : (byName n).Pairwise fun i j => tupleField i < tupleField j := by
  have h := keysAscend_collect (tupleFields ((List.range n).map id))
  rw [collect_tupleFields] at h
  simpa [KeysAscend, pairwise_map] using h

lemma byName_perm : (byName n).Perm (List.range n) := by
  have hkeys := nodup_tupleFields (List.range n)
  have hperm : (collect (tupleFields (List.range n))).Perm (tupleFields (List.range n)) :=
    (perm_ext_iff_of_nodup (keysAscend_collect _).nodup.of_map hkeys.of_map).mpr fun _ =>
      mem_collect_iff hkeys
  have hsnd : (tupleFields (List.range n)).map (·.2) = List.range n := by
    simp [tupleFields, Function.comp_def]
  exact hsnd ▸ hperm.map Prod.snd

lemma mem_byName {i : ℕ} : i ∈ byName n ↔ i < n := byName_perm.mem_iff.trans mem_range

/-- Key order compares tuples by the names of their fields. -/
lemma partialCmp_tuple : partialCmp (tuple n f) (tuple n g) =
    firstDecided ((byName n).map fun i => partialCmp (f i) (g i)) := by
  have hfields : ∀ l : List ℕ, partialCmpFields (l.map fun i => (tupleField i, f i))
      (l.map fun i => (tupleField i, g i)) =
        firstDecided (l.map fun i => partialCmp (f i) (g i)) := by
    intro l
    induction l with
    | nil => simp [partialCmpFields, firstDecided]
    | cons i l ih =>
      simp only [map_cons, partialCmpFields_cons, ih]
      rcases partialCmp (f i) (g i) with _ | _ | _ | _ <;> simp [firstDecided]
  rw [tuple, tuple, collect_tupleFields, collect_tupleFields, partialCmp, if_pos (by simp), hfields]

lemma position_tupleField {i : ℕ} (hi : i < 2 ^ 64) : position (tupleField i) = some i := by
  have hlist : (tupleField i).toList = '_' :: Nat.toDigits 10 i := by
    simp [tupleField, Nat.repr]
  have hall : ∀ c ∈ Nat.toDigits 10 i, c.isDigit = true :=
    fun c => Nat.isDigit_of_mem_toDigits (by decide) (by decide)
  have hplus : (Nat.toDigits 10 i).head? ≠ some '+' := fun h =>
    absurd (hall _ (mem_of_mem_head? h)) (by decide)
  have hvalue : Nat.ofDigitChars 10 (Nat.toDigits 10 i) 0 = i :=
    Nat.ofDigitChars_toDigits (by decide) (by decide)
  rw [position, hlist]
  simpa [parseUsize, hplus, hvalue, Nat.toDigits_ne_nil, all_eq_true.mpr hall] using hi

lemma positions_tuple (hn : n ≤ 2 ^ 64) : positions (collect (tupleFields ((List.range n).map f))) =
      some ((List.range n).map fun i => (i, f i)) := by
  have hread : ((byName n).map fun i => (tupleField i, f i)).mapM
      (fun kv => do return (← position kv.1, kv.2)) = some ((byName n).map fun i => (i, f i)) := by
    rw [mapM_eq_some_iff_forall₂, forall₂_map_left_iff, forall₂_map_right_iff, forall₂_same]
    intro i hi
    simp [position_tupleField ((mem_byName.mp hi).trans_le hn)]
  rw [positions, collect_tupleFields, hread]
  refine congrArg some (@List.Perm.eq_of_pairwise _ (fun a b => a.1 ≤ b.1) _ _ ?_ ?_ ?_
    ((mergeSort_perm _ _).trans (byName_perm.map _)))
  · intro a b ha hb hab hba
    obtain ⟨i, -, rfl⟩ := mem_map.mp (mem_mergeSort.mp ha)
    obtain ⟨j, -, rfl⟩ := mem_map.mp hb
    obtain rfl : i = j := le_antisymm hab hba
    rfl
  · simpa using @pairwise_mergeSort (ℕ × Value) (fun a b => decide (a.1 ≤ b.1))
      (fun a b c => by simpa using le_trans) (fun a b => by simpa using le_total _ _) _
  · exact pairwise_map.mpr (pairwise_le_range)

/-- The language compares tuples by the positions of their fields. -/
lemma compareValues_tuple (hn : n ≤ 2 ^ 64) : compareValues (tuple n f) (tuple n g) =
    firstDecided ((List.range n).map fun i => compareValues (f i) (g i)) := by
  rw [tuple, tuple, compareValues, positions_tuple hn, positions_tuple hn]
  simp only [length_map, ne_eq, not_true_eq_false, if_false]
  rw [attach_map_val (f := fun lr : (ℕ × Value) × (ℕ × Value) => compareValues lr.1.2 lr.2.2),
    zip_map', map_map]
  rfl

lemma partialCmp_union (tag : FieldKey) (v w : Value) :
    partialCmp (.union tag v) (.union tag w) = partialCmp v w := by
  rw [partialCmp, compare_eq_iff_eq.mpr rfl]

lemma compareValues_of_ne {v : Value} (w : Value) (h : ∀ fields, v ≠ .record fields) :
    compareValues v w = partialCmp v w := by
  cases v with
  | record fields => exact absurd rfl (h fields)
  | _ => rw [compareValues]; simp

/-- Tuples are ordered alike where what varies in them is named in order. -/
lemma compareValues_eq_partialCmp {f' g' : ℕ → Value} (hn : n ≤ 2 ^ 64)
    (hnames : ∀ i j, i < j → j < n → f i ≠ g i → f j ≠ g j → tupleField i < tupleField j)
    (h : ∀ i < n, compareValues (f' i) (g' i) = partialCmp (f i) (g i)) :
    compareValues (tuple n f') (tuple n g') = partialCmp (tuple n f) (tuple n g) := by
  rw [compareValues_tuple hn, partialCmp_tuple, map_congr_left fun i hi => h i (mem_range.mp hi)]
  rcases firstDecided_cases (pairwise_lt_range (n := n)) with
    ⟨hpos, hall⟩ | ⟨i, hi, hpos, hne, hfirst⟩
  · refine hpos.trans (firstDecided_eq_eq fun i hi => hall i ?_).symm
    exact byName_perm.mem_iff.mp hi
  · rw [hpos]
    refine (firstDecided_eq (c := fun i => partialCmp (f i) (g i)) byName_sorted
      (byName_perm.mem_iff.mpr hi) fun j hj hne' => ?_).symm
    refine (hfirst j (byName_perm.mem_iff.mp hj) hne').imp_right fun hij => ⟨hne, ?_⟩
    exact (hnames i j hij (mem_byName.mp hj) (mt partialCmp_eq_iff.mpr hne)
      (mt partialCmp_eq_iff.mpr hne')).asymm

end Value

open Value

/-! ## Order keys -/

/-- How a value is read as the tuple it orders by. -/
inductive OrderKey where
  | whole
  | fields (fields : List (String × OrderKey))
  | payload (tag : FieldKey) (key : OrderKey)

namespace OrderKey

mutual

/-- The value read as its key. -/
def key : OrderKey → Value → Option Value
  | .whole, v => some v
  | .fields fs, .record columns =>
    -- a column is taken out by its name, once
    if (fs.map (·.1)).Nodup then
      (keys fs columns).map fun vs => .record (collect (tupleFields vs))
    else none
  | .payload tag k, .union tag' inner => if tag = tag' then k.key inner else none
  | _, _ => none

def keys : List (String × OrderKey) → List (String × Value) → Option (List Value)
  | [], _ => some []
  | (name, k) :: rest, columns => do
    return (← k.key (← columns.lookup name)) :: (← keys rest columns)

end

variable {n : ℕ} {k : ℕ → OrderKey} {f f' : ℕ → Value}

lemma key_tuple : (fields (tupleFields ((List.range n).map k))).key (tuple n f) =
    ((List.range n).mapM fun i => (k i).key (f i)).map fun vs =>
      .record (collect (tupleFields vs)) := by
  have hkeys : ∀ is : List ℕ, (∀ i ∈ is, i < n) →
      keys (is.map fun i => (tupleField i, k i)) (collect (tupleFields ((List.range n).map f))) =
        is.mapM fun i => (k i).key (f i) := by
    intro is his
    induction is with
    | nil => rfl
    | cons i is ih =>
      obtain ⟨hi, his⟩ := forall_mem_cons.mp his
      have hlookup : (collect (tupleFields ((List.range n).map f))).lookup (tupleField i) =
          some (f i) := lookup_collect_tupleFields.mpr ⟨i, by simp [hi], rfl⟩
      simp [keys, hlookup, ih his]
  have hnames : tupleFields ((List.range n).map k) =
      (List.range n).map fun i => (tupleField i, k i) := by
    refine ext_getElem (by simp [tupleFields]) fun i hi hi' => ?_
    simp [tupleFields]
  rw [key, if_pos (nodup_tupleFields _), hnames, hkeys _ fun i => mem_range.mp]

lemma key_fields (h : ∀ i < n, (k i).key (f i) = some (f' i)) :
    (fields (tupleFields ((List.range n).map k))).key (tuple n f) = some (tuple n f') := by
  have hread : (List.range n).mapM (fun i => (k i).key (f i)) = some ((List.range n).map f') := by
    rw [mapM_eq_some_iff_forall₂, forall₂_map_right_iff, forall₂_same]
    exact fun i hi => h i (mem_range.mp hi)
  rw [key_tuple, hread, Option.map_some]

end OrderKey

/-! ## The extents the language orders -/

/-- The extents the language orders: base types, tuples, and variants over them. -/
inductive OrderedExtent where
  | base (τ : ScalarType)
  | tuple (n : ℕ) (hn : n ≤ 2 ^ 64) (fields : ℕ → OrderedExtent)
  | variant (tags : List FieldKey) (payload : FieldKey → OrderedExtent)

namespace OrderedExtent

/-- The values of the extent. -/
def Has : OrderedExtent → Value → Prop
  | .base τ, v => ∃ x : τ.Val, v = .scalar τ x
  | .tuple n _ e, v => ∃ f, v = Value.tuple n f ∧ ∀ i < n, (e i).Has (f i)
  | .variant tags e, v => ∃ t w, v = .union t w ∧ t ∈ tags ∧ (e t).Has w

/-- The keys `order_key` makes for the values: the value itself, of a tuple its fields' keys in
order, and of a type with one constructor its payload's. -/
def ReadBy : OrderedExtent → OrderKey → Prop
  | .base _, k => k = .whole
  | .tuple n _ e, k => k = .whole ∨ ∃ ks : ℕ → OrderKey,
      k = .fields (tupleFields ((List.range n).map ks)) ∧ ∀ i < n, (e i).ReadBy (ks i)
  | .variant tags e, k => k = .whole ∨ ∃ t k', tags = [t] ∧ k = .payload t k' ∧ (e t).ReadBy k'

/-- The extent has two values. -/
def Varied (e : OrderedExtent) : Prop := ∃ v w, e.Has v ∧ e.Has w ∧ v ≠ w

/-- Wherever two fields of a tuple vary, their names are in the order of their positions; what is
behind a choice of constructors is compared by name alone. -/
def NamesInOrder : OrderedExtent → Prop
  | .base _ => True
  | .tuple n _ e => (∀ i j, i < j → j < n → (e i).Varied → (e j).Varied →
      tupleField i < tupleField j) ∧ ∀ i < n, (e i).NamesInOrder
  | .variant tags e => ∀ t, tags = [t] → (e t).NamesInOrder

/-- Read by the key, values are in key order as the language orders them, and as their keys are. -/
def Agrees (e : OrderedExtent) (k : OrderKey) : Prop :=
  ∀ v w, e.Has v → e.Has w → ∃ v' w', k.key v = some v' ∧ k.key w = some w' ∧
    compareValues v' w' = partialCmp v w ∧ partialCmp v' w' = partialCmp v w

variable {e : OrderedExtent} {k : OrderKey}

lemma readBy_whole : ∀ e : OrderedExtent, e.ReadBy .whole
  | .base _ => rfl
  | .tuple .. => .inl rfl
  | .variant .. => .inl rfl

lemma Agrees.whole (h : e.Agrees .whole) {v w : Value} (hv : e.Has v) (hw : e.Has w) :
    compareValues v w = partialCmp v w := by
  obtain ⟨_, _, hv', hw', hcmp, -⟩ := h v w hv hw
  cases hv'
  cases hw'
  exact hcmp

lemma agrees_of_namesInOrder (hk : e.ReadBy k) (he : e.NamesInOrder) : e.Agrees k := by
  induction e generalizing k with
  | base τ =>
    obtain rfl : k = .whole := hk
    rintro v w ⟨x, rfl⟩ -
    exact ⟨_, _, rfl, rfl, compareValues_of_ne w (by simp), rfl⟩
  | tuple n hn e ih =>
    rintro _ _ ⟨f, rfl, hf⟩ ⟨g, rfl, hg⟩
    have hnames : ∀ i j, i < j → j < n → f i ≠ g i → f j ≠ g j → tupleField i < tupleField j :=
      fun i j hij hj hi' hj' => he.1 i j hij hj
        ⟨_, _, hf i (hij.trans hj), hg i (hij.trans hj), hi'⟩ ⟨_, _, hf j hj, hg j hj, hj'⟩
    rcases hk with rfl | ⟨ks, rfl, hks⟩
    · refine ⟨_, _, rfl, rfl, compareValues_eq_partialCmp hn hnames fun i hi => ?_, rfl⟩
      exact (ih i (readBy_whole _) (he.2 i hi)).whole (hf i hi) (hg i hi)
    have : Nonempty Value := ⟨f 0⟩
    have hkeys := fun i hi => ih i (hks i hi) (he.2 i hi) _ _ (hf i hi) (hg i hi)
    choose! f' hkeys using hkeys
    choose! g' hf' hg' hcmp hcmp' using hkeys
    refine ⟨_, _, OrderKey.key_fields hf', OrderKey.key_fields hg',
      compareValues_eq_partialCmp hn hnames hcmp, ?_⟩
    rw [partialCmp_tuple, partialCmp_tuple]
    exact congrArg _ (map_congr_left fun i hi => hcmp' i (mem_byName.mp hi))
  | variant tags e ih =>
    rintro _ _ ⟨t, v, rfl, ht, hv⟩ ⟨t', w, rfl, ht', hw⟩
    rcases hk with rfl | ⟨u, k', rfl, rfl, hk'⟩
    · exact ⟨_, _, rfl, rfl, compareValues_of_ne _ (by simp), rfl⟩
    · obtain rfl := mem_singleton.mp ht
      obtain rfl := mem_singleton.mp ht'
      obtain ⟨v', w', hv', hw', hcmp⟩ := ih t' hk' (he t' rfl) v w hv hw
      rw [← partialCmp_union t'] at hcmp
      exact ⟨v', w', by simp [OrderKey.key, hv'], by simp [OrderKey.key, hw'], hcmp⟩

lemma exists_partialCmp {v w : Value} (hv : e.Has v) (hw : e.Has w) :
    ∃ o, partialCmp v w = some o := by
  induction e generalizing v w with
  | base τ =>
    obtain ⟨x, rfl⟩ := hv
    obtain ⟨y, rfl⟩ := hw
    exact ⟨_, partialCmp_scalar x y⟩
  | tuple n hn e ih =>
    obtain ⟨f, rfl, hf⟩ := hv
    obtain ⟨g, rfl, hg⟩ := hw
    rw [partialCmp_tuple]
    rcases firstDecided_cases byName_sorted with ⟨heq, -⟩ | ⟨i, hi, heq, -⟩
    · exact ⟨_, heq⟩
    · exact heq ▸ ih i (hf i (mem_byName.mp hi)) (hg i (mem_byName.mp hi))
  | variant tags e ih =>
    obtain ⟨t, v, rfl, -, hv⟩ := hv
    obtain ⟨t', w, rfl, -, hw⟩ := hw
    rw [partialCmp]
    rcases ht : compare t t' with _ | _ | _
    · exact ⟨_, rfl⟩
    · obtain rfl := compare_eq_iff_eq.mp ht
      exact ih t hv hw
    · exact ⟨_, rfl⟩

section Tuple

variable {n : ℕ} {fields : ℕ → OrderedExtent} {f : ℕ → Value} {x y : Value} {i j : ℕ}

lemma has_update (hf : ∀ m < n, (fields m).Has (f m)) (hx : (fields i).Has x) :
    ∀ m < n, (fields m).Has (Function.update f i x m) := by
  intro m hm
  by_cases h : m = i
  · subst h
    simpa using hx
  · simpa [h] using hf m hm

/-- A tuple that agrees does so at each of its fields: the others left as they are, the field
decides both orders. -/
lemma Agrees.field {hn : n ≤ 2 ^ 64}
    (h : ∀ k, (tuple n hn fields).ReadBy k → (tuple n hn fields).Agrees k)
    (hf : ∀ m < n, (fields m).Has (f m))
    (hi : i < n) (hk : (fields i).ReadBy k) : (fields i).Agrees k := by
  intro x y hx hy
  let ks := Function.update (fun _ => OrderKey.whole) i k
  have hks : (tuple n hn fields).ReadBy (.fields (tupleFields ((List.range n).map ks))) := by
    refine .inr ⟨ks, rfl, fun m hm => ?_⟩
    by_cases hmi : m = i
    · subst hmi
      simpa [ks] using hk
    · simpa [ks, hmi] using readBy_whole _
  have hread : ∀ {x v : Value}, (OrderKey.fields (tupleFields ((List.range n).map ks))).key
      (Value.tuple n (Function.update f i x)) = some v →
      ∃ x', k.key x = some x' ∧ v = Value.tuple n (Function.update f i x') := by
    intro x v hv
    obtain ⟨vs, hvs, -⟩ := Option.map_eq_some_iff.mp (OrderKey.key_tuple ▸ hv)
    obtain ⟨x', -, hx'⟩ := exists_of_forall₂_mem_right (mapM_eq_some_iff_forall₂.mp hvs).flip
      (mem_range.mpr hi)
    replace hx' : k.key x = some x' := by simpa [ks] using hx'
    refine ⟨x', hx', Option.some.inj (hv.symm.trans (OrderKey.key_fields fun m hm => ?_))⟩
    by_cases hmi : m = i
    · subst hmi
      simpa [ks] using hx'
    · simp [ks, hmi, OrderKey.key]
  have hone : ∀ {l : List ℕ} (c : ℕ → Option Ordering), i ∈ l →
      (∀ m ∈ l, m ≠ i → c m = some .eq) → firstDecided (l.map c) = c i := fun c hi h =>
    firstDecided_eq (pairwise_of_forall fun _ _ => trivial) hi fun m hm hne =>
      .inl (by_contra fun hmi => hne (h m hm hmi))
  have hself : ∀ m ∈ List.range n, compareValues (f m) (f m) = some .eq := by
    have heq := (h _ (readBy_whole _)).whole ⟨f, rfl, hf⟩ ⟨f, rfl, hf⟩
    rw [partialCmp_eq_iff.mpr rfl, compareValues_tuple hn] at heq
    rcases firstDecided_cases pairwise_lt_range with ⟨-, hall⟩ | ⟨m, -, hfirst, hne, -⟩
    · exact hall
    · exact absurd (hfirst.symm.trans heq) hne
  have hcmp : ∀ x y, partialCmp (Value.tuple n (Function.update f i x))
      (Value.tuple n (Function.update f i y)) = partialCmp x y := by
    intro x y
    rw [partialCmp_tuple, hone _ (mem_byName.mpr hi)]
    · simp
    · intro m _ hmi
      simp [hmi, partialCmp_eq_iff]
  have hcmp' : ∀ x y, compareValues (Value.tuple n (Function.update f i x))
      (Value.tuple n (Function.update f i y)) = compareValues x y := by
    intro x y
    rw [compareValues_tuple hn, hone _ (mem_range.mpr hi)]
    · simp
    · intro m hm hmi
      simpa [hmi] using hself m hm
  obtain ⟨_, _, hv, hw, h⟩ := h _ hks _ _ ⟨_, rfl, has_update hf hx⟩ ⟨_, rfl, has_update hf hy⟩
  obtain ⟨x', hx', rfl⟩ := hread hv
  obtain ⟨y', hy', rfl⟩ := hread hw
  rw [hcmp, hcmp', hcmp] at h
  exact ⟨x', y', hx', hy', h⟩

/-- Two fields that vary are named in the order of their positions: else each order is decided by
one of them, and a tuple that agrees would not tell the two values of the other one apart. -/
lemma Agrees.names {hn : n ≤ 2 ^ 64} (h : (tuple n hn fields).Agrees .whole)
    (hfields : ∀ m < n, (fields m).Agrees .whole) (hf : ∀ m < n, (fields m).Has (f m))
    (hij : i < j) (hj : j < n) (hi' : (fields i).Varied) (hj' : (fields j).Varied) :
    tupleField i < tupleField j := by
  obtain ⟨x, y, hx, hy, hxy⟩ := hi'
  obtain ⟨z, w, hz, hw, hzw⟩ := hj'
  by_contra hname
  have hcmp : ∀ z w, (fields j).Has z → (fields j).Has w → z ≠ w →
      partialCmp x y = partialCmp z w := by
    intro z w hz hw hzw
    have hv := has_update (has_update hf hx) hz
    have hu := has_update (has_update hf hy) hw
    have hagree := h.whole ⟨_, rfl, hv⟩ ⟨_, rfl, hu⟩
    set v := Function.update (Function.update f i x) j z
    set u := Function.update (Function.update f i y) j w
    obtain ⟨hvi, hui, hvj, huj⟩ : v i = x ∧ u i = y ∧ v j = z ∧ u j = w := by
      simp [v, u, hij.ne]
    have hdecided : ∀ m, partialCmp (v m) (u m) ≠ some .eq → m = i ∨ m = j := by
      refine fun m hne => by_contra fun hm => hne (partialCmp_eq_iff.mpr ?_)
      simp [v, u, not_or.mp hm]
    have hpos : firstDecided ((List.range n).map fun m => partialCmp (v m) (u m)) =
        partialCmp (v i) (u i) :=
      firstDecided_eq pairwise_lt_range (mem_range.mpr (hij.trans hj)) fun m _ hne =>
        (hdecided m hne).imp_right fun hm => ⟨by rwa [hvi, hui, Ne, partialCmp_eq_iff], by omega⟩
    have hnamed : firstDecided ((byName n).map fun m => partialCmp (v m) (u m)) =
        partialCmp (v j) (u j) :=
      firstDecided_eq byName_sorted (mem_byName.mpr hj) fun m _ hne =>
        (hdecided m hne).symm.imp_right fun hm =>
          ⟨by rwa [hvj, huj, Ne, partialCmp_eq_iff], by rwa [hm]⟩
    rw [compareValues_tuple hn, partialCmp_tuple, hnamed, hvj, huj] at hagree
    rw [← hagree, ← hvi, ← hui, ← hpos]
    refine congrArg _ (map_congr_left fun m hm => ?_)
    exact ((hfields m (mem_range.mp hm)).whole (hv m (mem_range.mp hm))
      (hu m (mem_range.mp hm))).symm
  obtain ⟨o, ho⟩ := exists_partialCmp hz hw
  have hswap := (hcmp z w hz hw hzw).symm.trans ((hcmp w z hw hz hzw.symm).trans
    (partialCmp_swap z w))
  rw [ho] at hswap
  cases o with
  | eq => exact hzw (partialCmp_eq_iff.mp ho)
  | _ => cases hswap

end Tuple

lemma namesInOrder_of_agrees {v : Value} (hv : e.Has v) (h : ∀ k, e.ReadBy k → e.Agrees k) :
    e.NamesInOrder := by
  induction e generalizing v with
  | base τ => trivial
  | tuple n hn e ih =>
    obtain ⟨f, rfl, hf⟩ := hv
    have hfields : ∀ i < n, ∀ k, (e i).ReadBy k → (e i).Agrees k :=
      fun i hi k hk => Agrees.field h hf hi hk
    refine ⟨fun i j hij hj hi' hj' => ?_, fun i hi => ih i (hf i hi) (hfields i hi)⟩
    exact Agrees.names (h _ (readBy_whole _)) (fun m hm => hfields m hm _ (readBy_whole _)) hf hij
      hj hi' hj'
  | variant tags e ih =>
    rintro t rfl
    obtain ⟨t', v, rfl, ht, hv⟩ := hv
    obtain rfl := mem_singleton.mp ht
    refine ih t' hv fun k hk x y hx hy => ?_
    obtain ⟨x', y', hx', hy', hcmp⟩ := h (.payload t' k) (.inr ⟨t', k, rfl, rfl, hk⟩)
      (.union t' x) (.union t' y) ⟨t', x, rfl, ht, hx⟩ ⟨t', y, rfl, ht, hy⟩
    rw [OrderKey.key, if_pos rfl] at hx' hy'
    rw [partialCmp_union] at hcmp
    exact ⟨x', y', hx', hy', hcmp⟩

/-- **Key order is the language's order where the names are in order.** -/
theorem keyOrder_iff (e : OrderedExtent) : ((∀ k, e.ReadBy k → e.Agrees k) ∧
      (∀ v w, e.Has v → e.Has w → ∃ o, partialCmp v w = some o ∧ (o = .eq ↔ v = w) ∧
        partialCmp w v = some o.swap) ∧
      ∀ u v w, e.Has u → e.Has v → e.Has w → partialCmp u v = some .lt →
        partialCmp v w = some .lt → partialCmp u w = some .lt) ↔
    ((∃ v, e.Has v) → e.NamesInOrder) := by
  refine ⟨fun ⟨h, _⟩ ⟨v, hv⟩ => namesInOrder_of_agrees hv h, fun h => ⟨?_, ?_, ?_⟩⟩
  · exact fun k hk v w hv hw => agrees_of_namesInOrder hk (h ⟨v, hv⟩) v w hv hw
  · intro v w hv hw
    obtain ⟨o, ho⟩ := exists_partialCmp hv hw
    refine ⟨o, ho, ?_, by rw [partialCmp_swap, ho]; rfl⟩
    rw [← partialCmp_eq_iff, ho, Option.some.injEq]
  · exact fun u v w _ _ _ => partialCmp_lt_trans

/-- Of two tuples of eleven Booleans, all false but the last of the one and the third of the other,
the language has the one before the other and key order the other before the one. -/
theorem compareValues_eleven :
    let only := fun i : ℕ => Value.tuple 11 fun m => .scalar .bool (decide (m = i))
    (∀ i, (tuple 11 (by decide) fun _ => .base .bool).Has (only i)) ∧
      compareValues (only 10) (only 2) = some .lt ∧ partialCmp (only 10) (only 2) = some .gt := by
  refine ⟨fun i => ⟨_, rfl, fun m _ => ⟨_, rfl⟩⟩, ?_, ?_⟩
  · rw [compareValues_tuple (by decide)]
    simp only [compareValues_of_ne _ (v := .scalar _ _) (by simp), partialCmp_scalar]
    decide
  · have hnames : byName 11 = [0, 1, 10, 2, 3, 4, 5, 6, 7, 8, 9] := by decide
    rw [partialCmp_tuple, hnames]
    simp only [partialCmp_scalar]
    decide

end OrderedExtent

end Cambra
