import Cambra.Reshape.Places
import Cambra.Tiling.GuardExact

/-!
# Permuting tuple keys

`PermuteRecordDomain` reorders the fields of a collection's tuple keys: field `i` of an output key
is field `permutation[i]` of the input key.  `getImpl` reorders the key column and the level's own
statement; `releaseImpl` restates a released region for the input.

A key is written as the list of its fields (`tupleValue`), and a permutation as the list of the
fields it takes, some order of `0 .. n`.  `permuted` reorders such a list and `inverse` is the
permutation back.

Keys and the level's own completion are reordered exactly.  Two things are not:

* the statements of the levels beneath are passed on as they are, so one that names the keys it is
  beneath is read against the reordered keys;
* a released region is restated with the permutation itself, where its inverse is meant, and a
  region that is no region of keys is refused.

`permuteRecordDomain_exact_iff` says when neither matters, and `three_cycle_releases_wrong_key` that
it does for a cycle of three.  The permutation itself reads a region over the keys permuted back, so
a region that is not applicable there is outside the equivalence: arms of it may be dropped, and the
guard that comes out need not be one of the input's.
-/

namespace Cambra

open List hiding getElem?_eq_some_iff

/-- The keys of a level: where each row's run starts, the keys, and which are deleted. -/
structure LevelKeys where
  rowStarts : List ℕ
  domain : List Value
  deleted : List ℕ

namespace PermuteRecordDomain

/-! ## The operator -/

section Record

variable {α : Type}

/-- The fields a permutation names, each taken out of the record. -/
def takeFields : List (String × α) → List ℕ → Option (List α)
  | _, [] => some []
  | input, target :: rest => do
    let value ← input.lookup (tupleField target)
    return value :: (← takeFields (input.filter (·.1 ≠ tupleField target)) rest)

/-- The record with its fields permuted (`permute_record`). -/
def permuteRecord (input : List (String × α)) (permutation : List ℕ) :
    Option (List (String × α)) := do
  return collect (tupleFields (← takeFields input permutation))

end Record

/-- A key with its fields permuted. -/
def permuteKey (permutation : List ℕ) : Value → Option Value
  | .record fields => do return .record (← permuteRecord fields permutation)
  | _ => none

section Operator

variable [ScalarOps] {R L : Type}

/-- A region of a tuple domain, with its fields permuted. -/
def permuteComponentwise (permutation : List ℕ) : Predicate → Option Predicate
  | .tt => some .tt
  | .ff => some .ff
  | .ofRecord fields => do return .ofRecord (← permuteRecord fields permutation)
  | .ofOr arms => do
    Predicate.flattenOr (← arms.attach.mapM fun arm => permuteComponentwise permutation arm.1)
  | _ => none
termination_by p => sizeOf p
decreasing_by
  exact Predicate.sizeOf_arm_lt arm.2

/-- The tile with its outermost keys permuted. -/
def getImpl (permutation : List ℕ) : Tile LevelKeys R L → Option (Tile LevelKeys R L)
  | .dataFunction keys codomain domainPredicate => do
    let domain ← keys.domain.mapM (permuteKey permutation)
    return .dataFunction { keys with domain } codomain
      (← permuteComponentwise permutation domainPredicate)
  | _ => none

/-- The guard released to the input. -/
def releaseImpl (permutation : List ℕ) (guard : TileGuard) : Option TileGuard :=
  if guard.isUniversal then some (.domain .tt)
  else if guard.isEmpty then some (.domain .ff)
  else
    match guard with
    | .domain pred => do return .domain (← permuteComponentwise permutation pred)
    | _ => none

end Operator

/-! ## Permutations as lists -/

variable {i : ℕ} {fields : List Value} {p : Predicate} {e : Extent}

section Lists

variable {α β : Type} {σ : List ℕ} {n : ℕ}

/-- The fields in the order the permutation names them. -/
def permuted (σ : List ℕ) (xs : List α) : List α := σ.filterMap (xs[·]?)

/-- The permutation back. -/
def inverse (σ : List ℕ) : List ℕ := (List.range σ.length).map σ.idxOf

lemma forall₂_permuted_same {S : α → β → Prop} {xs : List α} {ys : List β}
    (h : List.Forall₂ S xs ys) (σ : List ℕ) :
    List.Forall₂ S (permuted σ xs) (permuted σ ys) := by
  induction σ with
  | nil => exact .nil
  | cons i σ ih =>
    rw [permuted, permuted]
    cases hx : xs[i]? with
    | none =>
      have hy : ys[i]? = none := by
        rw [getElem?_eq_none_iff] at hx ⊢
        exact h.length_eq ▸ hx
      rw [filterMap_cons_none hx, filterMap_cons_none hy]
      exact ih
    | some x =>
      obtain ⟨y, hy, hS⟩ := forall₂_getElem? h hx
      rw [filterMap_cons_some hx, filterMap_cons_some hy]
      exact .cons hS ih

/-- Each field of the permuted list is the one the permutation names. -/
lemma forall₂_permuted {xs : List α} (hσ : ∀ i ∈ σ, i < xs.length) :
    List.Forall₂ (fun i x => xs[i]? = some x) σ (permuted σ xs) := by
  induction σ with
  | nil => exact .nil
  | cons i σ ih =>
    have hi := getElem?_eq_getElem (hσ i (by simp))
    rw [permuted, filterMap_cons_some hi]
    exact .cons hi (ih fun j hj => hσ j (by simp [hj]))

variable (hσ : σ.Perm (List.range n))

include hσ

lemma lt_of_mem (hi : i ∈ σ) : i < n := mem_range.mp (hσ.mem_iff.mp hi)

lemma nodup : σ.Nodup := hσ.nodup_iff.mpr nodup_range

lemma length_eq : σ.length = n := by simpa using hσ.length_eq

lemma lt_of_mem_inverse (hi : i ∈ inverse σ) : i < n := by
  obtain ⟨j, hj, rfl⟩ := mem_map.mp hi
  rw [mem_range, length_eq hσ, ← mem_range, ← hσ.mem_iff] at hj
  exact length_eq hσ ▸ idxOf_lt_length_of_mem hj

lemma permuted_inverse {xs : List α} (hn : xs.length = n) :
    permuted σ (permuted (inverse σ) xs) = xs := by
  have hinv : List.Forall₂ (fun i x => xs[i]? = some x) (inverse σ) (permuted (inverse σ) xs) :=
    forall₂_permuted fun i hi => hn ▸ lt_of_mem_inverse hσ hi
  have hlen : (permuted (inverse σ) xs).length = n := by
    rw [← hinv.length_eq, inverse, length_map, length_range, length_eq hσ]
  have hall := forall₂_permuted fun i hi => hlen.symm ▸ lt_of_mem hσ hi
  refine ext_getElem? fun i => ?_
  cases hi : σ[i]? with
  | none =>
    rw [getElem?_eq_none_iff] at hi
    rw [getElem?_eq_none (hall.length_eq ▸ hi),
      getElem?_eq_none (by rw [hn, ← length_eq hσ]; exact hi)]
  | some j =>
    obtain ⟨x, hx, hj⟩ := forall₂_getElem? hall hi
    have hidx : (inverse σ)[j]? = some (σ.idxOf j) := by
      have hlt : j < σ.length := length_eq hσ ▸ lt_of_mem hσ (mem_of_getElem? hi)
      rw [inverse, getElem?_map, getElem?_range hlt, Option.map_some]
    obtain ⟨y, hy, hback⟩ := forall₂_getElem? hinv hidx
    obtain rfl := Option.mem_unique hj hy
    obtain ⟨hlt, rfl⟩ := List.getElem?_eq_some_iff.mp hi
    rw [hx, ← hback, (nodup hσ).idxOf_getElem]

end Lists

/-! ## Keys, extents and regions -/

/-- The key with the fields. -/
def tupleValue (fields : List Value) : Value := .record (collect (tupleFields fields))

/-- The fields are those of a key of the extents. -/
def KeyOf (extents : List Extent) (fields : List Value) : Prop :=
  List.Forall₂ Value.OfExtent extents fields

/-- The places a permutation takes its fields from. -/
def places (σ : List ℕ) : List Place := σ.map fun i => (tupleField i, none)

lemma tupleValue_ofExtent {extents : List Extent} (h : KeyOf extents fields) :
    (tupleValue fields).OfExtent (flatExtent extents) := by
  refine .record (fun k e hk => ?_) fun k e v hk hv => ?_
  · obtain ⟨i, hi, rfl⟩ := lookup_collect_tupleFields.mp hk
    obtain ⟨v, hv, -⟩ := forall₂_getElem? h hi
    simp [lookup_collect_tupleFields.mpr ⟨i, hv, rfl⟩]
  · obtain ⟨i, hi, rfl⟩ := lookup_collect_tupleFields.mp hk
    obtain ⟨j, hj, hname⟩ := lookup_collect_tupleFields.mp hv
    obtain rfl := tupleField_injective hname
    exact (forall₂_iff_getElem?.mp h).2 i e v hi hj

section Fields

variable {α : Type} {σ : List ℕ}

lemma takeFields_eq (hσ : σ.Nodup) (input : List (String × α)) :
    takeFields input σ = σ.mapM fun i => input.lookup (tupleField i) := by
  induction σ generalizing input with
  | nil => rfl
  | cons i σ ih =>
    obtain ⟨hi, hσ⟩ := nodup_cons.mp hσ
    have hrest : (σ.mapM fun j => (input.filter (·.1 ≠ tupleField i)).lookup (tupleField j)) =
        σ.mapM fun j => input.lookup (tupleField j) := by
      refine mapM_congr fun j hj => ?_
      have hne : tupleField j ≠ tupleField i := fun h => hi (tupleField_injective h ▸ hj)
      rw [lookup_filter_key fun k => decide (k ≠ tupleField i), if_pos (by simpa using hne)]
    rw [takeFields, mapM_cons]
    simp only [ih hσ, hrest]

lemma permuteRecord_tuple {xs : List α} (hσ : σ.Perm (List.range xs.length)) :
    permuteRecord (collect (tupleFields xs)) σ = some (collect (tupleFields (permuted σ xs))) := by
  have htake : takeFields (collect (tupleFields xs)) σ = some (permuted σ xs) := by
    rw [takeFields_eq (nodup hσ), mapM_eq_some_iff_forall₂]
    exact (forall₂_permuted fun i hi => lt_of_mem hσ hi).imp fun i x hx =>
      lookup_collect_tupleFields.mpr ⟨i, hx, rfl⟩
  rw [permuteRecord, htake]
  rfl

end Fields

lemma flattenable_places {es : List (String × Extent)} (σ : List ℕ) (hp : p.Over [.record es]) :
    p.Flattenable (places σ) := by
  induction p with
  | ofOr arms ih => exact .ofOr fun a ha => ih a ha (hp.of_mem_arms ha)
  | _ =>
    rcases hp.record_cases rfl with h | h | ⟨m, h⟩
    · exact h ▸ .tt
    · exact h ▸ .ff
    · exact h ▸ .ofRecord fun k j q hplace _ => by simp [places] at hplace

section Regions

variable [ScalarOps] {σ : List ℕ}

lemma permuteComponentwise_eq (hσ : σ.Nodup) (p : Predicate) :
    permuteComponentwise σ p = p.flattenPredicate (places σ) := by
  induction p with
  | ofRecord m =>
    rw [permuteComponentwise, Predicate.flattenPredicate, permuteRecord, takeFields_eq hσ, places,
      mapM_map]
    exact Option.bind_assoc ..
  | ofOr arms ih =>
    rw [permuteComponentwise, Predicate.flattenPredicate_ofOr, mapM_attach (permuteComponentwise σ),
      mapM_congr ih]
    rfl
  | _ => simp [permuteComponentwise, Predicate.flattenPredicate]

variable {extents : List Extent} (hσ : σ.Perm (List.range extents.length))

include hσ

omit [ScalarOps] in
lemma mem_places {k : String} (hk : (k, e) ∈ collect (tupleFields extents)) :
    (k, none) ∈ places σ := by
  obtain ⟨i, hi, rfl⟩ := mem_collect_tupleFields.mp hk
  have hlt : i < extents.length := (List.getElem?_eq_some_iff.mp hi).1
  exact mem_map_of_mem (f := fun i => (tupleField i, none)) (hσ.mem_iff.mpr (mem_range.mpr hlt))

omit [ScalarOps] in
lemma splices_places : Splices (collect (tupleFields extents)) (places σ) (permuted σ extents) where
  places := by
    rw [places, forall₂_map_left_iff]
    exact (forall₂_permuted fun i hi => lt_of_mem hσ hi).imp fun i e he =>
      lookup_collect_tupleFields.mpr ⟨i, he, rfl⟩
  nodup := (nodup hσ).map fun i j h => tupleField_injective (Prod.mk.inj h).1
  alone := by simp [places]
  covers := fun _ _ hk => .inl (mem_places hσ (mem_of_lookup_eq_some hk))

omit [ScalarOps] in
lemma full_places : Full (collect (tupleFields extents)) (places σ) := by
  intro k hk
  obtain ⟨⟨k, e⟩, he, rfl⟩ := mem_map.mp hk
  exact ⟨none, mem_places hσ he⟩

omit [ScalarOps] in
lemma point_permuted (hlen : fields.length = extents.length) :
    (tupleValue (permuted σ fields)).point = flatPoint (places σ) (tupleValue fields).point := by
  simp only [tupleValue, Value.point, flatPoint, KeyPoint.record.injEq]
  funext name
  rw [Value.fieldPoint_getD]
  have hall := forall₂_permuted fun i hi => hlen.symm ▸ lt_of_mem hσ hi
  cases hname : (tupleFields (places σ)).lookup name with
  | some place =>
    obtain ⟨i, hi, rfl⟩ := mem_tupleFields_iff.mp (mem_of_lookup_eq_some hname)
    obtain ⟨j, hj, rfl⟩ : ∃ j, σ[i]? = some j ∧ (tupleField j, none) = place := by
      simpa [places] using hi
    obtain ⟨v, hv, hread⟩ := forall₂_getElem? hall hj
    have hpoint : pointAt (Value.fieldPoint (collect (tupleFields fields))) (tupleField j, none) =
        v.point := Value.fieldPoint_eq (lookup_collect_tupleFields.mpr ⟨j, hread, rfl⟩)
    rw [lookup_collect_tupleFields.mpr ⟨i, hv, rfl⟩]
    exact hpoint.symm
  | none =>
    have hnone : (collect (tupleFields (permuted σ fields))).lookup name = none := by
      rw [Option.eq_none_iff_forall_ne_some]
      intro v hv
      obtain ⟨i, hi, rfl⟩ := lookup_collect_tupleFields.mp hv
      obtain ⟨j, hj, -⟩ := forall₂_getElem? hall.flip hi
      have hplace : (places σ)[i]? = some (tupleField j, none) := by simp [places, hj]
      rw [(lookup_eq_some_iff_mem (nodup_tupleFields _)).mpr
        (mem_tupleFields_iff.mpr ⟨i, hplace, rfl⟩)] at hname
      cases hname
    rw [hnone]
    rfl

/-- **A region of the keys is restated exactly over the permuted keys.** -/
theorem permuteComponentwise_spec (hext : ∀ e ∈ extents, e.WellFormed)
    (hp : p.Applies [flatExtent extents]) :
    ∃ r, permuteComponentwise σ p = some r ∧ r.Applies [flatExtent (permuted σ extents)] ∧
      ∀ fields, KeyOf extents fields →
        (r.Admits [tupleValue (permuted σ fields)] ↔ p.Admits [tupleValue fields]) := by
  have hext' : ∀ e ∈ permuted σ extents, e.WellFormed := fun e he => by
    obtain ⟨i, -, hi⟩ := mem_filterMap.mp he
    exact hext e (mem_of_getElem? hi)
  have hwf := flatExtent_wellFormed hext
  have hwf' := flatExtent_wellFormed hext'
  have hover := hp.over (by simpa using hwf)
  obtain ⟨r, hr, hrover, hmem⟩ := Predicate.flattenPredicate_spec (splices_places hσ)
    (full_places hσ) hext' hover (flattenable_places σ hover)
  have hr' : r.Applies [flatExtent (permuted σ extents)] :=
    (Predicate.over_iff (by simpa using hwf')).mp hrover
  refine ⟨r, by rw [permuteComponentwise_eq (nodup hσ), hr], hr', fun fields hkey => ?_⟩
  rw [hr'.admits_key_iff hwf' (tupleValue_ofExtent (forall₂_permuted_same hkey σ)),
    hp.admits_key_iff hwf (tupleValue_ofExtent hkey), point_permuted hσ hkey.length_eq.symm]
  exact hmem _ (tupleValue_ofExtent hkey).point

end Regions

/-! ## Triples of Booleans -/

section Triples

open Predicate (onlyBool)

/-- Triples of Booleans. -/
abbrev triple : List Extent := List.replicate 3 (.base .bool)

/-- The triples whose fields in `s` are `true`. -/
def fieldsTrue (s : ℕ → Bool) : Predicate :=
  .ofRecord (collect (tupleFields ((List.range 3).map fun j => if s j then onlyBool true else .tt)))

/-- The triples whose field `i` is `true`. -/
abbrev fieldTrue (i : ℕ) : Predicate := fieldsTrue (· == i)

/-- The triples whose fields are all `true`. -/
abbrev allTrue : Predicate := fieldsTrue fun _ => true

/-- The fields of a triple. -/
def bools (a b c : Bool) : List Value := [.scalar .bool a, .scalar .bool b, .scalar .bool c]

lemma triple_wellFormed : ∀ e ∈ triple, e.WellFormed := by simp [triple, Extent.WellFormed.base]

lemma keyOf_triple : KeyOf triple fields ↔ ∃ a b c, fields = bools a b c := by
  have hbool : ∀ v : Value, v.OfExtent (.base .bool) ↔ ∃ b : Bool, v = .scalar .bool b := by
    refine fun v => ⟨fun h => ?_, ?_⟩
    · cases h with
      | @scalar _ τ hτ b =>
        obtain rfl : ScalarType.bool = τ := by simpa [Extent.scalarType] using hτ
        exact ⟨b, rfl⟩
    · rintro ⟨b, rfl⟩
      exact .scalar (τ := .bool) rfl b
  simp only [KeyOf, triple, List.replicate, forall₂_cons_left_iff,
    forall₂_nil_left_iff, hbool, bools]
  constructor
  · rintro ⟨_, _, ⟨a, rfl⟩, ⟨_, _, ⟨b, rfl⟩, ⟨_, _, ⟨c, rfl⟩, rfl, rfl⟩, rfl⟩, rfl⟩
    exact ⟨a, b, c, rfl⟩
  · rintro ⟨a, b, c, rfl⟩
    exact ⟨_, _, ⟨a, rfl⟩, ⟨_, _, ⟨b, rfl⟩, ⟨_, _, ⟨c, rfl⟩, rfl, rfl⟩, rfl⟩, rfl⟩

lemma keyOf_bools (a b c : Bool) : KeyOf triple (bools a b c) := keyOf_triple.mpr ⟨a, b, c, rfl⟩

lemma admits_ofQualified {enclosing here : Predicate} {key : Value} {above : List Value} :
    (Predicate.ofQualified enclosing here).Admits (key :: above) ↔
      enclosing.Admits above ∧ here.contains key = some true := by
  rw [Predicate.Admits, Predicate.containsPath_def]
  rcases h : enclosing.containsPath above with _ | _ | _ <;> simp [Predicate.Admits, h]

variable {s : ℕ → Bool}

lemma fieldsTrue_applies : (fieldsTrue s).Applies [flatExtent triple] := by
  refine (Predicate.over_iff (by simpa using flatExtent_wellFormed triple_wellFormed)).mp
    (Predicate.over_tuple ?_)
  have hfield : ∀ j, Predicate.Over [.base .bool] (if s j then onlyBool true else .tt) := by
    intro j
    split_ifs
    · exact Predicate.over_onlyBool true
    · exact .tt
  exact .cons (hfield 0) (.cons (hfield 1) (.cons (hfield 2) .nil))

lemma fieldsTrue_admits (a b c : Bool) :
    (fieldsTrue s).Admits [tupleValue (bools a b c)] ↔
      ∀ i < 3, s i → [a, b, c][i]? = some true := by
  rw [fieldsTrue_applies.admits_key_iff (flatExtent_wellFormed triple_wellFormed)
    (tupleValue_ofExtent (keyOf_bools a b c)), tupleValue, Value.point, fieldsTrue,
    Predicate.mem_tuple]
  have hpoint : ∀ (j : ℕ) (v : Bool), [a, b, c][j]? = some v →
      Value.fieldPoint (collect (tupleFields (bools a b c))) (tupleField j) =
        .scalar .bool (.here v) := fun j v hv => by
    have hv' : (bools a b c)[j]? = some (.scalar .bool v) := by
      have hmap : bools a b c = [a, b, c].map (.scalar .bool) := rfl
      rw [hmap, getElem?_map, hv]
      rfl
    rw [Value.fieldPoint_eq (lookup_collect_tupleFields.mpr ⟨j, hv', rfl⟩), Value.point]
  constructor
  · intro h i hi hs
    obtain ⟨v, hv⟩ : ∃ v, [a, b, c][i]? = some v := ⟨_, getElem?_eq_getElem hi⟩
    have hmem := h i (onlyBool true) (by simp [hi, hs])
    rw [hpoint i v hv] at hmem
    rw [hv, ← Predicate.mem_onlyBool.mp hmem]
  · intro h j p hp
    obtain ⟨j', hj', rfl⟩ := Option.map_eq_some_iff.mp (getElem?_map .. ▸ hp)
    obtain ⟨hlt, rfl⟩ := List.getElem?_eq_some_iff.mp hj'
    rw [length_range] at hlt
    rw [getElem_range]
    split_ifs with hs
    · rw [hpoint j true (h j hlt hs)]
      exact Predicate.mem_onlyBool.mpr rfl
    · exact .tt

lemma fieldTrue_admits (hi : i < 3) (a b c : Bool) :
    (fieldTrue i).Admits [tupleValue (bools a b c)] ↔ [a, b, c][i]? = some true := by
  simp only [fieldsTrue_admits, beq_iff_eq]
  exact ⟨fun h => h i hi rfl, fun h j _ hj => hj ▸ h⟩

lemma allTrue_admits (a b c : Bool) :
    allTrue.Admits [tupleValue (bools a b c)] ↔ a = true ∧ b = true ∧ c = true := by
  simp only [fieldsTrue_admits, Nat.forall_lt_succ_right]
  simp [and_assoc]

lemma asBool_fieldsTrue {a b c : Bool} (hout : ¬(fieldsTrue s).Admits [tupleValue (bools a b c)]) :
    (fieldsTrue s).asBool = none := by
  have hwf := flatExtent_wellFormed triple_wellFormed
  have happ := fieldsTrue_applies (s := s)
  rcases h : (fieldsTrue s).asBool with _ | _ | _
  · rfl
  · refine absurd ?_ (Predicate.not_mem_of_isFalse (happ.over (by simpa using hwf))
      (by simpa using h) [(tupleValue (bools true true true)).point])
    rw [← happ.admits_key_iff hwf (tupleValue_ofExtent (keyOf_bools ..)), fieldsTrue_admits]
    simp only [Nat.forall_lt_succ_right]
    simp
  · refine absurd ?_ hout
    rw [happ.admits_key_iff hwf (tupleValue_ofExtent (keyOf_bools a b c))]
    exact Predicate.mem_of_isTrue (happ.over (by simpa using hwf))
      (by simpa [Predicate.isTrue_iff] using h)
      (inLevels_singleton.mpr (tupleValue_ofExtent (keyOf_bools a b c)).point)

end Triples

/-! ## Exactness -/

section Exact

variable {R L : Type}

mutual

/-- The statements of the levels of a tile, each with its depth. -/
def statements : Tile LevelKeys R L → ℕ → List (ℕ × Predicate)
  | .leaf _, _ => []
  | .record fields _, depth => statementsOf fields depth
  | .dataFunction _ codomain domainPredicate, depth =>
    (depth, domainPredicate) :: statements codomain (depth + 1)

/-- The statements of the levels in the fields of a record. -/
def statementsOf : List (String × Tile LevelKeys R L) → ℕ → List (ℕ × Predicate)
  | [], _ => []
  | (_, field) :: rest, depth => statements field depth ++ statementsOf rest depth

end

/-- `p'` calls a path through a permuted key complete exactly if `p` calls the path through the key
complete.  The key is outermost, `depth` keys above the path's last. -/
def ReadsPermuted (σ : List ℕ) (extents : List Extent) (depth : ℕ) (p p' : Predicate) : Prop :=
  ∀ suffix fields, suffix.length = depth → KeyOf extents fields →
    (p'.Admits (suffix ++ [tupleValue (permuted σ fields)]) ↔
      p.Admits (suffix ++ [tupleValue fields]))

/-- The key and the permuted key. -/
def IsPermuted (σ : List ℕ) (extents : List Extent) (key key' : Value) : Prop :=
  ∃ fields, KeyOf extents fields ∧ key = tupleValue fields ∧ key' = tupleValue (permuted σ fields)

/-- The second tile holds the permuted keys of the first, and states the same of them. -/
def HoldsPermuted (σ : List ℕ) (extents : List Extent) :
    Tile LevelKeys R L → Tile LevelKeys R L → Prop
  | .dataFunction keys codomain p, .dataFunction keys' codomain' p' =>
    keys'.rowStarts = keys.rowStarts ∧ keys'.deleted = keys.deleted ∧
      List.Forall₂ (IsPermuted σ extents) keys.domain keys'.domain ∧
      ReadsPermuted σ extents 0 p p' ∧
      List.Forall₂ (fun s s' => s.1 = s'.1 ∧ ReadsPermuted σ extents (s.1 + 1) s.2 s'.2)
        (statements codomain 0) (statements codomain' 0)
  | _, _ => False

/-- The guard releases the key. -/
def ReleasesKey (guard : TileGuard) (key : Value) : Prop :=
  guard.isUniversal = true ∨ ∃ pred, guard = .domain pred ∧ pred.Admits [key]

/-- The operator is exact on the tile and the guard: its output holds and states what the input does
of the permuted keys, and the guard it releases is one of the input's tiling that releases the keys
whose permuted key is released. -/
def Exact [ScalarOps] (σ : List ℕ) (extents : List Extent)
    (values : Tiling) (tile : Tile LevelKeys R L) (guard : TileGuard) : Prop :=
  ∃ out upstream, getImpl σ tile = some out ∧ releaseImpl σ guard = some upstream ∧
    HoldsPermuted σ extents tile out ∧
    TileGuard.Guards (.dataFunction (flatExtent extents) values) upstream ∧
    ∀ fields, KeyOf extents fields → (ReleasesKey upstream (tupleValue fields) ↔
      ReleasesKey guard (tupleValue (permuted σ fields)))

/-- The region is everything, nothing, or a region of keys that is applicable over the keys permuted
back, which is what `releaseImpl` reads it over. -/
def Readable (σ : List ℕ) (extents : List Extent) (guard : TileGuard) : Prop :=
  guard.isUniversal = true ∨ guard.isEmpty = true ∨ ∃ pred, guard = .domain pred ∧
    pred.Applies [flatExtent (permuted (inverse σ) extents)]

/-- The statements beneath read a key and the permuted key alike, and the region is everything,
nothing, or a region of keys that is applicable over the keys permuted back and holds a key permuted
back exactly if it holds it permuted. -/
def Unmoved (σ : List ℕ) (extents : List Extent) (codomain : Tile LevelKeys R L)
    (guard : TileGuard) : Prop :=
  (∀ s ∈ statements codomain 0, ReadsPermuted σ extents (s.1 + 1) s.2 s.2) ∧
    (guard.isUniversal = true ∨ guard.isEmpty = true ∨ ∃ pred, guard = .domain pred ∧
      pred.Applies [flatExtent (permuted (inverse σ) extents)] ∧
      ∀ fields, KeyOf extents fields → (pred.Admits [tupleValue (permuted (inverse σ) fields)] ↔
        pred.Admits [tupleValue (permuted σ fields)]))

lemma releasesKey_domain (he : e.WellFormed) (hp : p.Applies [e]) {v : Value} (hv : v.OfExtent e) :
    ReleasesKey (.domain p) v ↔ p.Admits [v] := by
  constructor
  · rintro (huniv | ⟨_, heq, h⟩)
    · have htrue : p.isTrue = true := by
        simpa [TileGuard.isUniversal, Predicate.isTrue_iff] using huniv
      rw [hp.admits_key_iff he hv]
      exact Predicate.mem_of_isTrue (hp.over (by simpa using he)) htrue
        (inLevels_singleton.mpr hv.point)
    · exact TileGuard.domain.inj heq ▸ h
  · exact fun h => .inr ⟨p, rfl, h⟩

variable [ScalarOps] {σ : List ℕ} {extents : List Extent}
  (hσ : σ.Perm (List.range extents.length)) (hext : ∀ e ∈ extents, e.WellFormed)

include hσ hext

/-- The output is given, and exact up to the statements beneath. -/
lemma getImpl_spec {keys : LevelKeys} (codomain : Tile LevelKeys R L)
    (hkeys : ∀ k ∈ keys.domain, ∃ fields, KeyOf extents fields ∧ k = tupleValue fields)
    (hp : p.Applies [flatExtent extents]) :
    ∃ out, getImpl σ (.dataFunction keys codomain p) = some out ∧
      (HoldsPermuted σ extents (.dataFunction keys codomain p) out ↔
        ∀ s ∈ statements codomain 0, ReadsPermuted σ extents (s.1 + 1) s.2 s.2) := by
  obtain ⟨domain, hdomain, hall⟩ : ∃ domain, keys.domain.mapM (permuteKey σ) = some domain ∧
      List.Forall₂ (IsPermuted σ extents) keys.domain domain :=
    mapM_eq_some_of_forall fun k hk => by
      obtain ⟨fields, hfields, rfl⟩ := hkeys k hk
      have hkey : permuteKey σ (tupleValue fields) = some (tupleValue (permuted σ fields)) := by
        rw [tupleValue, permuteKey, permuteRecord_tuple (hfields.length_eq ▸ hσ)]
        rfl
      exact ⟨_, hkey, fields, hfields, rfl, rfl⟩
  obtain ⟨r, hr, -, hreads⟩ := permuteComponentwise_spec hσ hext hp
  refine ⟨.dataFunction { keys with domain } codomain r, ?_, ?_⟩
  · simp [getImpl, hdomain, hr]
  · have hown : ReadsPermuted σ extents 0 p r := fun suffix fields hlen hkey => by
      obtain rfl := length_eq_zero_iff.mp hlen
      exact hreads fields hkey
    simp [HoldsPermuted, hall, hown]

/-- The upstream guard is exact, and the region readable, for the guards `Unmoved` allows. -/
lemma releaseImpl_spec {values : Tiling} (hvalues : values.WellFormed) {guard : TileGuard}
    (hguard : TileGuard.Guards (.dataFunction (flatExtent (permuted σ extents)) values) guard) :
    ((∃ upstream, releaseImpl σ guard = some upstream ∧
      TileGuard.Guards (.dataFunction (flatExtent extents) values) upstream ∧
      ∀ fields, KeyOf extents fields → (ReleasesKey upstream (tupleValue fields) ↔
        ReleasesKey guard (tupleValue (permuted σ fields)))) ∧ Readable σ extents guard) ↔
    (guard.isUniversal = true ∨ guard.isEmpty = true ∨ ∃ pred, guard = .domain pred ∧
      pred.Applies [flatExtent (permuted (inverse σ) extents)] ∧ ∀ fields, KeyOf extents fields →
        (pred.Admits [tupleValue (permuted (inverse σ) fields)] ↔
          pred.Admits [tupleValue (permuted σ fields)])) := by
  have hwf := flatExtent_wellFormed hext
  have hpext : ∀ τ e, e ∈ permuted τ extents → e.WellFormed := fun τ e he => by
    obtain ⟨i, -, hi⟩ := mem_filterMap.mp he
    exact hext e (mem_of_getElem? hi)
  have hdomain : ∀ {r : Predicate}, r.Applies [flatExtent extents] →
      TileGuard.Guards (.dataFunction (flatExtent extents) values) (.domain r) := fun hr =>
    (TileGuard.guards_iff (.dataFunction hwf hvalues)).mpr
      (.domain .dataFunction (hr.over (by simpa using hwf)))
  have hwf' := flatExtent_wellFormed (hpext σ)
  have happ : ∀ pred, guard = .domain pred → pred.Applies [flatExtent (permuted σ extents)] := by
    rintro pred rfl
    cases (TileGuard.guards_iff (.dataFunction hwf' hvalues)).mp hguard with
    | domain hlevel h =>
      cases hlevel
      exact (Predicate.over_iff (by simpa using hwf')).mp h
  by_cases huniv : guard.isUniversal = true
  · simp only [releaseImpl, Readable, huniv, if_true, Option.some.injEq, exists_eq_left', true_or,
      iff_true, and_true]
    refine ⟨hdomain ((Predicate.over_iff (by simpa using hwf)).mp .tt), fun fields _ => ?_⟩
    simp [ReleasesKey, huniv, TileGuard.isUniversal, Predicate.asBool]
  by_cases hempty : guard.isEmpty = true
  · simp only [releaseImpl, Readable, huniv, hempty, if_true, if_false, Option.some.injEq,
      exists_eq_left', true_or, or_true, iff_true, and_true, Bool.false_eq_true]
    have hff : Predicate.ff.Applies [flatExtent extents] :=
      (Predicate.over_iff (by simpa using hwf)).mp .ff
    refine ⟨hdomain hff, fun fields hkey => ?_⟩
    rw [releasesKey_domain hwf hff (tupleValue_ofExtent hkey),
      hff.admits_key_iff hwf (tupleValue_ofExtent hkey), Predicate.mem_ff, false_iff]
    rintro (h | ⟨pred, rfl, h⟩)
    · exact huniv h
    · rw [(happ pred rfl).admits_key_iff hwf'
        (tupleValue_ofExtent (forall₂_permuted_same hkey σ))] at h
      exact Predicate.not_mem_of_isFalse ((happ pred rfl).over (by simpa using hwf'))
        (by simpa [TileGuard.isEmpty] using hempty) _ h
  -- a region of keys is restated as if its keys were those permuted back
  · cases guard with
    | domain pred =>
      simp only [Readable, huniv, hempty, Bool.false_eq_true, false_or, TileGuard.domain.injEq,
        exists_eq_left']
      rw [and_comm]
      refine and_congr_right fun hback => ?_
      have hlen : (permuted (inverse σ) extents).length = extents.length := by
        rw [← (forall₂_permuted fun i hi => lt_of_mem_inverse hσ hi).length_eq, inverse,
          length_map, length_range, length_eq hσ]
      obtain ⟨r, hr, hrapp, hreads⟩ := permuteComponentwise_spec (hlen.symm ▸ hσ)
        (hpext (inverse σ)) hback
      rw [permuted_inverse hσ rfl] at hrapp
      have hreads' : ∀ fields, KeyOf extents fields → (ReleasesKey (.domain r)
          (tupleValue fields) ↔ pred.Admits [tupleValue (permuted (inverse σ) fields)]) := by
        intro fields hkey
        rw [releasesKey_domain hwf hrapp (tupleValue_ofExtent hkey),
          ← hreads _ (forall₂_permuted_same hkey _), permuted_inverse hσ hkey.length_eq.symm]
      have hown : ∀ fields, KeyOf extents fields → (ReleasesKey (.domain pred)
          (tupleValue (permuted σ fields)) ↔ pred.Admits [tupleValue (permuted σ fields)]) :=
        fun fields hkey => releasesKey_domain hwf' (happ pred rfl)
          (tupleValue_ofExtent (forall₂_permuted_same hkey σ))
      simp only [releaseImpl, huniv, hempty, hr, hdomain hrapp, Bool.false_eq_true, if_false,
        Option.bind_eq_bind, Option.bind_some, Option.pure_def, Option.some.injEq, exists_eq_left',
        true_and]
      exact forall₂_congr fun fields hkey => by rw [hreads' fields hkey, hown fields hkey]
    | _ => simp [releaseImpl, Readable, huniv, hempty]

/-- **The operator is exact exactly on what permuting leaves alone**: tiles whose statements beneath
read a key and the permuted key alike, and regions that hold a key permuted back exactly if they
hold it permuted.  Anywhere else it is not exact, or it reads the region over keys it is no region
of. -/
theorem permuteRecordDomain_exact_iff {values : Tiling} (hvalues : values.WellFormed)
    {keys : LevelKeys} {codomain : Tile LevelKeys R L} {p : Predicate}
    (hkeys : ∀ k ∈ keys.domain, ∃ fields, KeyOf extents fields ∧ k = tupleValue fields)
    (hp : p.Applies [flatExtent extents]) {guard : TileGuard}
    (hguard : TileGuard.Guards (.dataFunction (flatExtent (permuted σ extents)) values) guard) :
    Exact σ extents values (.dataFunction keys codomain p) guard ∧ Readable σ extents guard ↔
      Unmoved σ extents codomain guard := by
  obtain ⟨out, hout, hholds⟩ := getImpl_spec hσ hext codomain hkeys hp
  rw [Unmoved, ← hholds, ← releaseImpl_spec hσ hext hvalues hguard]
  constructor
  · rintro ⟨⟨out', upstream, hout', hup, hperm, hguards, hreleases⟩, hread⟩
    obtain rfl := Option.mem_unique hout hout'
    exact ⟨hperm, ⟨upstream, hup, hguards, hreleases⟩, hread⟩
  · rintro ⟨hperm, ⟨upstream, hup, hguards, hreleases⟩, hread⟩
    exact ⟨⟨out, upstream, hout, hup, hperm, hguards, hreleases⟩, hread⟩

end Exact

/-! ## A cycle of three -/

section Cycle

/-- Two triples, each with a Boolean key beneath.  Beneath the triples of `true`s the keys `true`
are complete. -/
def twoTriples : Tile LevelKeys Unit Unit :=
  .dataFunction ⟨[0, 2], [tupleValue (bools true true true), tupleValue (bools true false false)],
      []⟩
    (.dataFunction ⟨[0, 1, 2], [.scalar .bool true, .scalar .bool false], []⟩ (.leaf ())
      (.ofQualified allTrue (Predicate.onlyBool true)))
    allTrue

/-- The triples of `true`s are permuted to themselves, so a cycle of three reads and releases them
exactly. -/
theorem permuteRecordDomain_exact_all_true :
    Exact [1, 2, 0] triple (.dataFunction (.base .bool) .scalar) twoTriples (.domain allTrue) ∧
      Readable [1, 2, 0] triple (.domain allTrue) := by
  have hvalues : Tiling.WellFormed (.dataFunction (.base .bool) .scalar) :=
    .dataFunction .base .scalar
  refine (permuteRecordDomain_exact_iff (by decide) triple_wellFormed hvalues ?_
    fieldsTrue_applies ?_).mpr ⟨?_, .inr (.inr ⟨allTrue, rfl, fieldsTrue_applies, ?_⟩)⟩
  · simp only [forall_mem_cons]
    exact ⟨⟨_, keyOf_bools .., rfl⟩, ⟨_, keyOf_bools .., rfl⟩, by simp⟩
  · have hwf := flatExtent_wellFormed triple_wellFormed
    exact (TileGuard.guards_iff (.dataFunction hwf hvalues)).mpr
      (.domain .dataFunction (fieldsTrue_applies.over (by simpa using hwf)))
  · rintro ⟨depth, p⟩ hp suffix fields hlen hkey
    obtain ⟨rfl, rfl⟩ : depth = 0 ∧ p = .ofQualified allTrue (Predicate.onlyBool true) := by
      simpa [statements] using hp
    obtain ⟨key, rfl⟩ := length_eq_one_iff.mp hlen
    obtain ⟨a, b, c, rfl⟩ := keyOf_triple.mp hkey
    have hperm : permuted [1, 2, 0] (bools a b c) = bools b c a := rfl
    simp only [cons_append, nil_append, admits_ofQualified, hperm, allTrue_admits]
    tauto
  · intro fields hkey
    obtain ⟨a, b, c, rfl⟩ := keyOf_triple.mp hkey
    have hforth : permuted [1, 2, 0] (bools a b c) = bools b c a := rfl
    have hback : permuted (inverse [1, 2, 0]) (bools a b c) = bools c a b := rfl
    rw [hforth, hback, allTrue_admits, allTrue_admits]
    tauto

/-- **A cycle of three releases the wrong key.**  The region of the output keys whose first field,
the input's second, is `true` releases the input keys whose third field is. -/
theorem three_cycle_releases_wrong_key :
    releaseImpl [1, 2, 0] (.domain (fieldTrue 0)) = some (.domain (fieldTrue 2)) ∧
      ¬(fieldTrue 2).Admits [tupleValue (bools false true false)] ∧
      (fieldTrue 0).Admits [tupleValue (permuted [1, 2, 0] (bools false true false))] ∧
      ¬Exact [1, 2, 0] triple (.dataFunction (.base .bool) .scalar) twoTriples
        (.domain (fieldTrue 0)) := by
  have hnone : (fieldTrue 0).asBool = none :=
    asBool_fieldsTrue (a := false) (b := false) (c := false) (by simp [fieldTrue_admits])
  have hrelease : releaseImpl [1, 2, 0] (.domain (fieldTrue 0)) = some (.domain (fieldTrue 2)) := by
    rw [releaseImpl, if_neg (by simp [TileGuard.isUniversal, hnone]),
      if_neg (by simp [TileGuard.isEmpty, hnone]), fieldTrue, fieldsTrue, permuteComponentwise,
      permuteRecord_tuple (by decide)]
    rfl
  have hmiss : ¬(fieldTrue 2).Admits [tupleValue (bools false true false)] := by
    simp [fieldTrue_admits]
  have hin : (fieldTrue 0).Admits [tupleValue (permuted [1, 2, 0] (bools false true false))] :=
    (fieldTrue_admits (by decide) true false false).mpr rfl
  refine ⟨hrelease, hmiss, hin, ?_⟩
  rintro ⟨out, upstream, -, hup, -, -, hexact⟩
  obtain rfl := Option.mem_unique hrelease hup
  have hreleased := (hexact _ (keyOf_bools false true false)).mpr (.inr ⟨_, rfl, hin⟩)
  rw [releasesKey_domain (flatExtent_wellFormed triple_wellFormed) fieldsTrue_applies
    (tupleValue_ofExtent (keyOf_bools ..))] at hreleased
  exact hmiss hreleased

end Cycle

end PermuteRecordDomain

end Cambra
