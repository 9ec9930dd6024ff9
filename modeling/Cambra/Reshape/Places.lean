import Cambra.Tiling.Levels

/-!
# Keys with their fields in other places

`FlattenTupleDomain` and `PermuteRecordDomain` respell the keys of a level: a key is a record, and
the respelled key is a tuple each field of which stood at a *place* of the record: a field of it, or
a field of a record that is one of its fields.  A field map lists the places, one for each field of
the tuple.

`flattenPredicate` restates a region of the records over the tuples, one componentwise predicate at
a time.  It is exact (`flattenPredicate_spec`) where every field of the record is at some place
(`Full`) and no arm has an `Or` at a field that is taken apart (`Flattenable`).
-/

namespace Cambra

open List

/-! ## Tuples -/

variable {k : String} {extents : List Extent} {f : String → KeyPoint} {i : ℕ} {e : Extent}

section Tuples

variable {α β : Type} {items : List α} {x : α}

lemma mem_tupleFields_iff :
    (k, x) ∈ tupleFields items ↔ ∃ i, items[i]? = some x ∧ k = tupleField i := by
  simp only [tupleFields, mem_map, Prod.exists, Prod.mk.injEq]
  constructor
  · rintro ⟨y, i, hmem, rfl, rfl⟩
    exact ⟨i, mk_mem_zipIdx_iff_getElem?.mp hmem, rfl⟩
  · rintro ⟨i, hi, rfl⟩
    exact ⟨x, i, mk_mem_zipIdx_iff_getElem?.mpr hi, rfl, rfl⟩

lemma nodup_tupleFields (items : List α) : ((tupleFields items).map (·.1)).Nodup := by
  have hkeys : (tupleFields items).map (·.1) = (List.range items.length).map tupleField := by
    simp only [tupleFields, map_map, range_eq_range', ← zipIdx_map_snd]
    rfl
  rw [hkeys]
  exact nodup_range.map tupleField_injective

lemma mem_collect_tupleFields :
    (k, x) ∈ collect (tupleFields items) ↔ ∃ i, items[i]? = some x ∧ k = tupleField i := by
  rw [mem_collect_iff (nodup_tupleFields items), mem_tupleFields_iff]

lemma lookup_collect_tupleFields : (collect (tupleFields items)).lookup k = some x ↔
      ∃ i, items[i]? = some x ∧ k = tupleField i := by
  rw [lookup_eq_some_iff_mem (keysAscend_collect _).nodup, mem_collect_tupleFields]

lemma forall₂_tupleFields {R : α → β → Prop} {xs : List α} {ys : List β}
    (h : List.Forall₂ R xs ys) :
    List.Forall₂ (SameKey R) (tupleFields xs) (tupleFields ys) := by
  rw [forall₂_iff_get] at h ⊢
  refine ⟨by simp [tupleFields, h.1], fun i hi hi' => ?_⟩
  simp only [tupleFields, get_eq_getElem, getElem_map, getElem_zipIdx]
  exact ⟨rfl, h.2 i (by simpa [tupleFields] using hi) (by simpa [tupleFields] using hi')⟩

end Tuples

/-! ## Places -/

/-- Where a field of the tuple came from: a field of the record, or a field of the record there. -/
abbrev Place := String × Option String

/-- The extent at a place. -/
def extentAt (es : List (String × Extent)) : Place → Option Extent
  | (k, none) => es.lookup k
  | (k, some j) => do
    match ← es.lookup k with
    | .record inner => inner.lookup j
    | _ => none

/-- The extent of the respelled keys. -/
def flatExtent (extents : List Extent) : Extent := .record (collect (tupleFields extents))

namespace Predicate

/-- What a componentwise predicate says of a place. -/
def atPlace (outer : List (String × Predicate)) : Place → Option Predicate
  | (k, none) => outer.lookup k
  | (k, some j) => do
    match ← outer.lookup k with
    | .tt => some .tt
    | .ff => some .ff
    | .ofRecord inner => inner.lookup j
    | _ => none

section Definitions

variable [ScalarOps]

/-- A predicate over the records, over the tuples. -/
def flattenPredicate (fieldMap : List Place) : Predicate → Option Predicate
  | .tt => some .tt
  | .ff => some .ff
  | .ofRecord outer => do
    return .ofRecord (collect (tupleFields (← fieldMap.mapM (atPlace outer))))
  | .ofOr arms => do flattenOr (← arms.attach.mapM fun arm => flattenPredicate fieldMap arm.1)
  | _ => none
termination_by p => sizeOf p
decreasing_by
  exact Predicate.sizeOf_arm_lt arm.2

lemma flattenPredicate_ofOr (fieldMap : List Place) (arms : List Predicate) :
    flattenPredicate fieldMap (.ofOr arms) =
      (arms.mapM (flattenPredicate fieldMap)).bind flattenOr := by
  rw [flattenPredicate, mapM_attach (flattenPredicate fieldMap)]
  rfl

end Definitions

end Predicate

/-! ## Field maps -/

/-- The field map takes the keys of `es` to tuples of `extents`: each place is one of the record,
none is listed twice, a field is passed through or taken apart, and one that is taken apart is so
with all its fields. -/
structure Splices (es : List (String × Extent)) (fieldMap : List Place) (extents : List Extent) :
    Prop where
  places : List.Forall₂ (fun place e => extentAt es place = some e) fieldMap extents
  nodup : fieldMap.Nodup
  alone : ∀ k j, (k, none) ∈ fieldMap → (k, some j) ∉ fieldMap
  covers : ∀ k e, es.lookup k = some e → (k, none) ∈ fieldMap ∨
    ∃ inner, e = .record inner ∧ ∀ j ∈ inner.map (·.1), (k, some j) ∈ fieldMap

/-- Every field of the record has a place in the tuple. -/
def Full (es : List (String × Extent)) (fieldMap : List Place) : Prop :=
  ∀ k ∈ es.map (·.1), ∃ j, (k, j) ∈ fieldMap

/-- The point at a place. -/
def pointAt (f : String → KeyPoint) : Place → KeyPoint
  | (k, none) => f k
  | (k, some j) =>
    match f k with
    | .record g => g j
    | _ => .unit

/-- The point of a tuple, from the point of the record. -/
def flatPoint (fieldMap : List Place) : KeyPoint → KeyPoint
  | .record f => .record fun name =>
    match (tupleFields fieldMap).lookup name with
    | some place => pointAt f place
    | none => .unit
  | x => x

/-! ### Extents and points of a tuple -/

lemma flatExtent_wellFormed (h : ∀ e ∈ extents, e.WellFormed) :
    (flatExtent extents).WellFormed := by
  refine .record (keysAscend_collect _) fun k e he => ?_
  obtain ⟨i, hi, -⟩ := mem_collect_tupleFields.mp he
  exact h e (mem_of_getElem? hi)

/-- What is said of the fields of a tuple, field by field. -/
lemma inExtent_flatExtent_iff : InExtent (flatExtent extents) (.record f) ↔
      ∀ i e, extents[i]? = some e → InExtent e (f (tupleField i)) := by
  constructor
  · intro h i e hi
    obtain ⟨g, hg, hfields⟩ := h.exists_record rfl
    obtain rfl := KeyPoint.record.inj hg
    exact hfields _ e (lookup_collect_tupleFields.mpr ⟨i, hi, rfl⟩)
  · intro h
    refine .record fun k e hk => ?_
    obtain ⟨i, hi, rfl⟩ := lookup_collect_tupleFields.mp hk
    exact h i e hi

variable {place : Place}

lemma flatPoint_record {fieldMap : List Place} (hi : fieldMap[i]? = some place)
    {g : String → KeyPoint} (hg : flatPoint fieldMap (.record f) = .record g) :
    g (tupleField i) = pointAt f place := by
  obtain rfl := KeyPoint.record.inj hg
  have hlookup : (tupleFields fieldMap).lookup (tupleField i) = some place :=
    (lookup_eq_some_iff_mem (nodup_tupleFields fieldMap)).mpr (mem_tupleFields_iff.mpr ⟨i, hi, rfl⟩)
  simp [hlookup]

lemma exists_flatPoint (fieldMap : List Place) (f : String → KeyPoint) :
    ∃ g, flatPoint fieldMap (.record f) = .record g :=
  ⟨_, rfl⟩

section Splices

variable {es : List (String × Extent)} {fieldMap : List Place}
  (hs : Splices es fieldMap extents)

include hs

lemma Splices.exists_extent (hi : fieldMap[i]? = some place) :
    ∃ e, extents[i]? = some e ∧ extentAt es place = some e := by
  obtain ⟨e, he, hplace⟩ := forall₂_getElem? hs.places hi
  exact ⟨e, he, hplace⟩

lemma Splices.exists_place (hi : extents[i]? = some e) :
    ∃ place, fieldMap[i]? = some place ∧ extentAt es place = some e := by
  obtain ⟨place, hplace, he⟩ := forall₂_getElem? hs.places.flip hi
  exact ⟨place, hplace, he⟩

omit hs in
lemma inExtent_pointAt (hf : ∀ k e, es.lookup k = some e → InExtent e (f k))
    (he : extentAt es place = some e) : InExtent e (pointAt f place) := by
  obtain ⟨k, _ | j⟩ := place
  · exact hf k e he
  · obtain ⟨own, hk, hj⟩ := Option.bind_eq_some_iff.mp he
    cases own with
    | record inner =>
      obtain ⟨g, hg, hfields⟩ := (hf k _ hk).exists_record rfl
      simpa [pointAt, hg] using hfields j e hj
    | _ => simp at hj

lemma Splices.inExtent_flatPoint {x : KeyPoint} (hx : InExtent (.record es) x) :
    InExtent (flatExtent extents) (flatPoint fieldMap x) := by
  obtain ⟨f, rfl, hf⟩ := hx.exists_record rfl
  refine inExtent_flatExtent_iff.mpr fun i e hi => ?_
  obtain ⟨place, hplace, he⟩ := hs.exists_place hi
  rw [flatPoint_record hplace rfl]
  exact inExtent_pointAt hf he

end Splices

namespace Predicate

/-! ## Flattening a predicate -/

/-- No arm has an `Or` at a field that is taken apart. -/
inductive Flattenable (fieldMap : List Place) : Predicate → Prop
  | tt : Flattenable fieldMap .tt
  | ff : Flattenable fieldMap .ff
  | ofRecord {m : List (String × Predicate)}
      (h : ∀ k j p, (k, some j) ∈ fieldMap → m.lookup k = some p → p.isOr = false) :
      Flattenable fieldMap (.ofRecord m)
  | ofOr {arms : List Predicate} (h : ∀ a ∈ arms, Flattenable fieldMap a) :
      Flattenable fieldMap (.ofOr arms)

variable {preds arms : List Predicate} {es : List (String × Extent)} {levels : List Extent}

/-- The componentwise predicate of a tuple, from predicates of its fields. -/
lemma over_tuple (h : List.Forall₂ (fun e p => Over [e] p) extents preds) :
    Over [flatExtent extents] (.ofRecord (collect (tupleFields preds))) := by
  refine .ofRecord rfl (keysAscend_collect _) ?_ fun k p e hp he => ?_
  · exact (keys_eq_of_forall₂ (fun _ _ hab => hab.1) (forall₂_collect (forall₂_tupleFields h))).symm
  · obtain ⟨i, hi, rfl⟩ := mem_collect_tupleFields.mp hp
    obtain ⟨i', hi', hname⟩ := lookup_collect_tupleFields.mp he
    obtain rfl := tupleField_injective hname
    exact (forall₂_iff_getElem?.mp h).2 _ e p hi' hi

lemma mem_tuple : Mem (.ofRecord (collect (tupleFields preds))) [.record f] ↔
      ∀ i p, preds[i]? = some p → Mem p [f (tupleField i)] := by
  rw [mem_ofRecord]
  constructor
  · exact fun h i p hi => h _ p (mem_collect_tupleFields.mpr ⟨i, hi, rfl⟩)
  · intro h k p hp
    obtain ⟨i, hi, rfl⟩ := mem_collect_tupleFields.mp hp
    exact h i p hi

variable {p : Predicate} {j : String}

/-- A predicate over records that is no `Or` is a constant or a componentwise one. -/
lemma Over.record_cases (hp : Over [.record es] p) (hor : p.isOr = false) :
    p = .tt ∨ p = .ff ∨ ∃ m, p = .ofRecord m := by
  cases hp with
  | tt => exact .inl rfl
  | ff => exact .inr (.inl rfl)
  | ofIntervals hown _ => cases hown
  | ofRecord => exact .inr (.inr ⟨_, rfl⟩)
  | ofOr => cases hor
  | ofUnion hown => cases hown
  | ofQualified hne => exact absurd rfl hne

/-- The fields of a componentwise predicate are over the fields of the record. -/
lemma Over.field {m : List (String × Predicate)} (hm : Over [.record es] (.ofRecord m))
    (hk : es.lookup k = some e) : ∃ p, m.lookup k = some p ∧ Over [e] p := by
  cases hm with
  | ofRecord hown hasc hkeys h =>
    obtain rfl := Extent.record.inj hown
    obtain ⟨p, hp⟩ := exists_lookup_of_keys_eq hkeys.symm (mem_of_lookup_eq_some hk)
    exact ⟨p, hp, h k p e (mem_of_lookup_eq_some hp) hk⟩

/-- Arms restated one at a time: `ψ` spells the points, and `M` says which an arm admits. -/
lemma flattenOr_arms [ScalarOps] (hatoms : Atoms levels)
    {f : Predicate → Option Predicate} (hne : arms ≠ []) {ι : Type} {ψ : ι → List KeyPoint}
    {M : Predicate → ι → Prop}
    (h : ∀ a ∈ arms, ∃ r, f a = some r ∧ Over levels r ∧ ∀ x, (Mem r (ψ x) ↔ M a x))
    (hψ : ∀ x, InLevels levels (ψ x)) :
    ∃ r, (arms.mapM f).bind flattenOr = some r ∧ Over levels r ∧
      ∀ x, (Mem r (ψ x) ↔ ∃ a ∈ arms, M a x) := by
  obtain ⟨rs, hrs, hall⟩ := mapM_eq_some_of_forall h
  have hne' : rs ≠ [] := by
    rintro rfl
    exact hne (forall₂_nil_right_iff.mp hall)
  obtain ⟨r, hr, hover, -, hmem⟩ := hatoms.flattenOr_spec hne' fun r hr => by
    obtain ⟨a, -, hover, -⟩ := exists_of_forall₂_mem_right hall hr
    exact hover
  refine ⟨r, by rw [hrs]; exact hr, hover, fun x => ?_⟩
  rw [hmem _ (hψ x)]
  exact exists_mem_iff_of_forall₂ hall fun _ _ hM => hM.2 x

section Flatten

variable {fieldMap : List Place}
  {m : List (String × Predicate)}

/-- A place of the record is read, where no `Or` stands at a field that is taken apart. -/
lemma atPlace_over (hm : Over [.record es] (.ofRecord m)) (he : extentAt es place = some e)
    (hor : ∀ j p, place.2 = some j → m.lookup place.1 = some p → p.isOr = false) :
    ∃ p, atPlace m place = some p ∧ Over [e] p := by
  obtain ⟨k, _ | j⟩ := place
  · exact hm.field he
  obtain ⟨own, hk, hj⟩ := Option.bind_eq_some_iff.mp he
  cases own with
  | record inner =>
    obtain ⟨p, hp, hover⟩ := hm.field hk
    rcases hover.record_cases (hor j p rfl hp) with rfl | rfl | ⟨n, rfl⟩
    · exact ⟨.tt, by simp [atPlace, hp], .tt⟩
    · exact ⟨.ff, by simp [atPlace, hp], .ff⟩
    · obtain ⟨q, hq, hqover⟩ := hover.field hj
      exact ⟨q, by simp [atPlace, hp, hq], hqover⟩
  | _ => simp at hj

lemma atPlace_eq_some_iff : atPlace m (k, some j) = some p ↔ ∃ q, m.lookup k = some q ∧
      (q = .tt ∧ p = .tt ∨ q = .ff ∧ p = .ff ∨ ∃ n, q = .ofRecord n ∧ n.lookup j = some p) := by
  simp only [atPlace, Option.bind_eq_bind, Option.bind_eq_some_iff]
  refine exists_congr fun q => and_congr_right fun _ => ?_
  cases q <;> simp [eq_comm]

/-- A componentwise predicate admits what it admits at every place. -/
lemma mem_places_iff (hs : Splices es fieldMap extents) (hfull : Full es fieldMap)
    (hm : Over [.record es] (.ofRecord m))
    (hor : ∀ k j p, (k, some j) ∈ fieldMap → m.lookup k = some p → p.isOr = false)
    (hf : ∀ k e, es.lookup k = some e → InExtent e (f k)) :
    (∀ place ∈ fieldMap, ∀ p, atPlace m place = some p → Mem p [pointAt f place]) ↔
      Mem (.ofRecord m) [.record f] := by
  have hm' := hm
  cases hm' with
  | ofRecord hown hasc hkeys hfields =>
  obtain rfl := Extent.record.inj hown
  rw [mem_ofRecord]
  constructor
  · intro h k p hp
    have hlookup := (lookup_eq_some_iff_mem hasc.nodup).mpr hp
    obtain ⟨e, he⟩ := exists_lookup_of_keys_eq hkeys hp
    obtain ⟨_ | j, hplace⟩ := hfull k (lookup_isSome_iff_mem_keys.mp (by simp [he]))
    · exact h _ hplace p hlookup
    -- the field is taken apart, so it is a record and its predicate a constant or componentwise
    · obtain ⟨inner, rfl, hin⟩ := (hs.covers k e he).resolve_left fun h' => hs.alone k j h' hplace
      have hover := hfields k p _ hp he
      rcases hover.record_cases (hor k j p hplace hlookup) with rfl | rfl | ⟨n, rfl⟩
      · exact .tt
      · exact absurd (h _ hplace .ff (by simp [atPlace, hlookup])) (by simp)
      obtain ⟨g, hg, -⟩ := (hf k _ he).exists_record rfl
      rw [hg, mem_ofRecord]
      intro j' p' hp'
      cases hover with
      | ofRecord hown' hasc' hkeys' _ =>
      obtain rfl := Extent.record.inj hown'
      have hj' := hin j' (hkeys' ▸ mem_map_of_mem (f := (·.1)) hp')
      have hat : atPlace m (k, some j') = some p' := atPlace_eq_some_iff.mpr
        ⟨_, hlookup, .inr (.inr ⟨n, rfl, (lookup_eq_some_iff_mem hasc'.nodup).mpr hp'⟩)⟩
      simpa [pointAt, hg] using h _ hj' p' hat
  · rintro h ⟨k, _ | j⟩ hplace p hp
    · exact h k p (mem_of_lookup_eq_some hp)
    · obtain ⟨q, hq, ⟨rfl, rfl⟩ | ⟨rfl, rfl⟩ | ⟨n, rfl, hn⟩⟩ := atPlace_eq_some_iff.mp hp
      · exact .tt
      · exact absurd (h k _ (mem_of_lookup_eq_some hq)) (by simp)
      · have hmem := h k _ (mem_of_lookup_eq_some hq)
        generalize hfk : f k = x at hmem
        cases hmem with
        | ofRecord hg => simpa [pointAt, hfk] using hg j p (mem_of_lookup_eq_some hn)

variable [ScalarOps]

/-- **A region of the records is restated exactly over the tuples**, where every field has a place
and no `Or` stands at a field that is taken apart. -/
theorem flattenPredicate_spec (hs : Splices es fieldMap extents) (hfull : Full es fieldMap)
    (hext : ∀ e ∈ extents, e.WellFormed) (hp : Over [.record es] p) (hflat : Flattenable fieldMap p)
    :
    ∃ r, flattenPredicate fieldMap p = some r ∧ Over [flatExtent extents] r ∧
      ∀ x, InExtent (.record es) x → (Mem r [flatPoint fieldMap x] ↔ Mem p [x]) := by
  have hatoms : Atoms [flatExtent extents] :=
    atoms_of_levels (by simp) (by simpa using flatExtent_wellFormed hext)
  induction hflat with
  | tt => exact ⟨.tt, by rw [flattenPredicate], .tt, by simp⟩
  | ff => exact ⟨.ff, by rw [flattenPredicate], .ff, by simp⟩
  | @ofRecord m hor =>
    obtain ⟨preds, hpreds, hat⟩ : ∃ preds, fieldMap.mapM (atPlace m) = some preds ∧
        List.Forall₂ (fun place p => atPlace m place = some p ∧
          ∀ e, extentAt es place = some e → Over [e] p) fieldMap preds :=
      mapM_eq_some_of_forall fun place hplace => by
      obtain ⟨i, hi⟩ := mem_iff_getElem?.mp hplace
      obtain ⟨e, -, he⟩ := hs.exists_extent hi
      obtain ⟨p, hp, hover⟩ := atPlace_over hp he fun j p hj hk =>
        hor place.1 j p (hj ▸ hplace) hk
      exact ⟨p, hp, hp, fun e' he' => Option.mem_unique he he' ▸ hover⟩
    have hover : List.Forall₂ (fun e p => Over [e] p) extents preds := by
      refine forall₂_iff_getElem?.mpr
        ⟨hs.places.length_eq.symm.trans hat.length_eq, fun i e p hi hi' => ?_⟩
      obtain ⟨place, hplace, he⟩ := hs.exists_place hi
      exact ((forall₂_iff_getElem?.mp hat).2 i place p hplace hi').2 e he
    refine ⟨_, by rw [flattenPredicate, hpreds]; rfl, over_tuple hover, fun x hx => ?_⟩
    obtain ⟨f, rfl, hf⟩ := hx.exists_record rfl
    obtain ⟨g, hg⟩ := exists_flatPoint fieldMap f
    rw [← mem_places_iff hs hfull hp hor hf, hg, mem_tuple]
    constructor
    · intro h place hplace p hp
      obtain ⟨i, hi⟩ := mem_iff_getElem?.mp hplace
      obtain ⟨p', hp', hread, -⟩ := forall₂_getElem? hat hi
      obtain rfl := Option.mem_unique hp hread
      rw [← flatPoint_record hi hg]
      exact h i p hp'
    · intro h i p hi
      obtain ⟨place, hplace, hread, -⟩ := forall₂_getElem? hat.flip hi
      rw [flatPoint_record hplace hg]
      exact h place (mem_of_getElem? hplace) p hread
  | @ofOr arms _ ih =>
    obtain ⟨r, hr, hover, hmem⟩ := flattenOr_arms hatoms hp.arms_ne_nil
      (ψ := fun x : {x // InExtent (.record es) x} => [flatPoint fieldMap x.1])
      (M := fun a x => Mem a [x.1])
      (fun a ha => by
        obtain ⟨r, hr, hover, hmem⟩ := ih a ha (hp.of_mem_arms ha)
        exact ⟨r, hr, hover, fun x => hmem x.1 x.2⟩)
      (fun x => inLevels_singleton.mpr (hs.inExtent_flatPoint x.2))
    refine ⟨r, by rw [flattenPredicate_ofOr, hr], hover, fun x hx => ?_⟩
    rw [hmem ⟨x, hx⟩, mem_ofOr]

end Flatten

end Predicate

end Cambra
