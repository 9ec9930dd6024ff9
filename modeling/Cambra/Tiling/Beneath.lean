import Cambra.Tiling.Restate

/-!
# One path, and a statement beneath it

`point` is the predicate of one value and `exactly` that of one path; `qualified_by` places a
statement about the paths of a column of groups under the rows it is attached to, and `beneath`
under one row.  A value here spells its extent out (`Value.Spells`): its records have the fields of
the extent and no other, so that the predicate of a value admits that value alone.

A predicate is applicable to an extent behind one wrapper and no more (`Extent.resolve`), while a
value may belong to an extent behind several.  Nothing a predicate says depends on the wrappers, so
the statements are proved over the extents with all of them taken off (`Extent.strip`).

## Main results

* `point_spec`, `exactly_spec`: one value, and one path, are admitted.
* `qualifiedBy_spec`: the paths of the rows, extended by the paths of the statement.
-/

namespace Cambra

open List Option

/-! ## Values that spell an extent out -/

/-- `v` is a value of the extent, with the fields of each of its records and no others. -/
inductive Value.Spells : Extent → Value → Prop
  | scalar {e : Extent} {τ : ScalarType} (h : e.scalarType = some τ) (v : τ.Val) :
      Spells e (.scalar τ v)
  | unit : Spells (.base .unit) .unit
  | record {es : List (String × Extent)} {fields : List (String × Value)}
      (hkeys : fields.map (·.1) = es.map (·.1))
      (h : ∀ k e v, es.lookup k = some e → fields.lookup k = some v → Spells e v) :
      Spells (.record es) (.record fields)
  | union {arms : List (FieldKey × Extent)} {tag : FieldKey} {e : Extent} {inner : Value}
      (htag : arms.lookup tag = some e) (h : Spells e inner) :
      Spells (.union arms) (.union tag inner)
  | dataSourceDomain {e : Extent} {v : Value} (h : Spells e v) : Spells (.dataSourceDomain e) v
  | restricted {e : Extent} {v : Value} (h : Spells e v) : Spells (.restricted e) v

variable {e : Extent} {v : Value} {τ : ScalarType}

lemma Value.Spells.ofExtent (h : v.Spells e) : v.OfExtent e := by
  induction h with
  | scalar h v => exact .scalar h v
  | unit => exact .unit
  | record hkeys _ ih =>
    refine .record (fun k e hk => ?_) ih
    rw [lookup_isSome_iff_mem_keys, hkeys, ← lookup_isSome_iff_mem_keys, hk]
    rfl
  | union htag _ ih => exact .union htag ih
  | dataSourceDomain _ ih => exact .dataSourceDomain ih
  | restricted _ ih => exact .restricted ih

/-! ## Extents without wrappers -/

mutual

/-- The extent with every wrapper in it taken off. -/
def Extent.strip : Extent → Extent
  | .record fields => .record (Extent.stripFields fields)
  | .union arms => .union (Extent.stripArms arms)
  | .dataSourceDomain element => element.strip
  | .restricted inner => inner.strip
  | .base b => .base b
  | .function d c => .function d c
  | .uintRange => .uintRange

/-- `strip` on the fields of a record. -/
def Extent.stripFields : List (String × Extent) → List (String × Extent)
  | [] => []
  | (k, e) :: rest => (k, e.strip) :: Extent.stripFields rest

/-- `strip` on the arms of a union. -/
def Extent.stripArms : List (FieldKey × Extent) → List (FieldKey × Extent)
  | [] => []
  | (k, e) :: rest => (k, e.strip) :: Extent.stripArms rest

end

namespace Extent

lemma stripFields_eq (es : List (String × Extent)) :
    stripFields es = es.map fun ke => (ke.1, ke.2.strip) := by
  induction es with
  | nil => rfl
  | cons ke es ih =>
    obtain ⟨k, e⟩ := ke
    rw [stripFields, ih, map_cons]

lemma stripArms_eq (arms : List (FieldKey × Extent)) :
    stripArms arms = arms.map fun ke => (ke.1, ke.2.strip) := by
  induction arms with
  | nil => rfl
  | cons ke arms ih =>
    obtain ⟨k, e⟩ := ke
    rw [stripArms, ih, map_cons]

lemma strip_record {es : List (String × Extent)} (h : e.resolve = .record es) :
    e.strip = .record (es.map fun ke => (ke.1, ke.2.strip)) := by
  cases e with
  | record fields =>
    obtain rfl := Extent.record.inj h
    rw [strip, stripFields_eq]
  | dataSourceDomain e =>
    obtain rfl : e = .record es := h
    rw [strip, strip, stripFields_eq]
  | restricted e =>
    obtain rfl : e = .record es := h
    rw [strip, strip, stripFields_eq]
  | _ => cases h

lemma strip_union {arms : List (FieldKey × Extent)} (h : e.resolve = .union arms) :
    e.strip = .union (arms.map fun ke => (ke.1, ke.2.strip)) := by
  cases e with
  | union fields =>
    obtain rfl := Extent.union.inj h
    rw [strip, stripArms_eq]
  | dataSourceDomain e =>
    obtain rfl : e = .union arms := h
    rw [strip, strip, stripArms_eq]
  | restricted e =>
    obtain rfl : e = .union arms := h
    rw [strip, strip, stripArms_eq]
  | _ => cases h

lemma strip_of_scalarType (h : e.scalarType = some τ) : e.strip = e := by
  cases e with
  | base | uintRange => rfl
  | _ => cases h

lemma scalarType_strip (h : e.resolve.scalarType = some τ) : e.strip.scalarType = some τ := by
  cases e with
  | dataSourceDomain e =>
    have he : e.scalarType = some τ := h
    rwa [strip, strip_of_scalarType he]
  | restricted e =>
    have he : e.scalarType = some τ := h
    rwa [strip, strip_of_scalarType he]
  | base | uintRange => exact h
  | _ => cases h

lemma WellFormed.strip (h : e.WellFormed) : e.strip.WellFormed := by
  induction h with
  | base => exact .base
  | function => exact .function
  | uintRange => exact .uintRange
  | dataSourceDomain _ ih => exact ih
  | restricted _ ih => exact ih
  | record hasc _ ih =>
    rw [strip_record rfl]
    refine .record (by rwa [KeysAscend, keys_map_entry fun _ => Extent.strip]) fun k e hk => ?_
    obtain ⟨ke, hmem, heq⟩ := mem_map.mp hk
    cases heq
    exact ih _ _ hmem
  | union hasc _ ih =>
    rw [strip_union rfl]
    refine .union (by rwa [KeysAscend, keys_map_entry fun _ => Extent.strip]) fun k e hk => ?_
    obtain ⟨ke, hmem, heq⟩ := mem_map.mp hk
    cases heq
    exact ih _ _ hmem

end Extent

lemma Value.Spells.strip (h : v.Spells e) : v.Spells e.strip := by
  induction h with
  | scalar h v =>
    rw [Extent.strip_of_scalarType h]
    exact .scalar h v
  | unit => exact .unit
  | record hkeys _ ih =>
    rw [Extent.strip_record rfl]
    refine .record (by rw [keys_map_entry fun _ => Extent.strip, hkeys]) fun k e v he hv => ?_
    rw [lookup_map_entry fun _ => Extent.strip] at he
    obtain ⟨e, hk, rfl⟩ := map_eq_some_iff.mp he
    exact ih k e v hk hv
  | union htag _ ih =>
    rw [Extent.strip_union rfl]
    exact .union (by rw [lookup_map_entry fun _ => Extent.strip, htag]; rfl) ih
  | dataSourceDomain _ ih => exact ih
  | restricted _ ih => exact ih

lemma spells_resolve_iff : v.Spells e.resolve ↔ v.Spells e := by
  cases e with
  | dataSourceDomain e =>
    exact ⟨.dataSourceDomain, fun | .scalar h _ => nomatch h | .dataSourceDomain h => h⟩
  | restricted e => exact ⟨.restricted, fun | .scalar h _ => nomatch h | .restricted h => h⟩
  | _ => rfl

namespace Predicate

/-- A path of values that spell the levels out. -/
def SpellsPath (levels : List Extent) (path : List Value) : Prop :=
  List.Forall₂ (fun e v => Value.Spells e v) levels path

variable {levels : List Extent} {p : Predicate}

lemma SpellsPath.valuesOf {path : List Value} (h : SpellsPath levels path) : ValuesOf levels path :=
  h.imp fun _ _ hv => hv.ofExtent

lemma SpellsPath.strip {path : List Value} (h : SpellsPath levels path) :
    SpellsPath (levels.map Extent.strip) path := by
  rw [SpellsPath, forall₂_map_left_iff]
  exact h.imp fun _ _ hv => hv.strip

/-- A predicate over levels is over them without their wrappers. -/
lemma Over.strip (hp : Over levels p) : Over (levels.map Extent.strip) p := by
  induction hp with
  | tt => exact .tt
  | ff => exact .ff
  | ofIntervals hown hs =>
    have hscalar := Extent.scalarType_strip hown
    exact .ofIntervals (by rwa [Extent.resolve_eq_of_scalarType hscalar]) hs
  | @ofRecord own above es m hown hasc hkeys _ ih =>
    refine .ofRecord (by rw [Extent.strip_record hown]; rfl) hasc
      (by rw [keys_map_entry fun _ => Extent.strip, hkeys]) fun k p e hp he => ?_
    rw [lookup_map_entry fun _ => Extent.strip] at he
    obtain ⟨e, hk, rfl⟩ := map_eq_some_iff.mp he
    exact ih k p e hp hk
  | ofOr hne _ hnest ih => exact .ofOr hne ih hnest
  | @ofUnion own above arms tags rest hown hkeys hsome _ ih =>
    refine .ofUnion (by rw [Extent.strip_union hown]; rfl) hkeys (fun k p hp => ?_)
      fun k p e hp he => ?_
    · rw [lookup_map_entry fun _ => Extent.strip, isSome_map]
      exact hsome k p hp
    · rw [lookup_map_entry fun _ => Extent.strip] at he
      obtain ⟨e, hk, rfl⟩ := map_eq_some_iff.mp he
      exact ih k p e hp hk
  | ofQualified hne _ _ ihe ihh =>
    exact .ofQualified (by simpa using hne) ihe ihh

/-! ## One value and one path -/

section Point

variable [ScalarOps]

mutual

/-- Exactly `v`, and nothing else. -/
def point : Value → Option Predicate
  | .unit => some .tt
  | .union tag inner => do
    tagged (← TagMap.fromArms [(tag, ← point inner)]) false
  | .record fields => do return .ofRecord (← pointFields fields)
  | .scalar τ v => intervals τ (IntervalOps.new [.newFinite ⟨false, v⟩ ⟨false, v⟩])

/-- The points of the fields of a record. -/
def pointFields : List (String × Value) → Option (List (String × Predicate))
  | [] => some []
  | (name, field) :: rest => do return (name, ← point field) :: (← pointFields rest)

end

/-- Exactly the node at `path`, and nothing else. -/
def exactly : List Value → Option Predicate
  | [] => some .tt
  | key :: above => do return qualified (← exactly above) (← point key)

/-- This predicate, stated over the paths of a column of groups `depth` levels beneath its rows,
restated over whole paths: qualified by `rows`.  A group's own level names no enclosing path, which
the source asserts. -/
def qualifiedBy (rows : Predicate) : ℕ → Predicate → Option Predicate
  | _, .ff => some .ff
  | depth, .ofOr arms => unionOver (fun arm => qualifiedBy rows depth arm.1) arms.attach
  | 0, .ofQualified _ _ => none
  | depth + 1, .ofQualified enclosing here => do
    return qualified (← qualifiedBy rows depth enclosing) here
  | 0, unqualified => some (qualified rows unqualified)
  | depth + 1, unqualified => do
    return qualified (← qualifiedBy rows depth .tt) unqualified
termination_by depth p => (depth, sizeOf p)
decreasing_by
  · have := sizeOf_lt_of_mem arm.2
    simp only [Predicate.ofOr.sizeOf_spec]
    exact Prod.Lex.right _ (by omega)
  · exact Prod.Lex.left _ _ (by omega)
  · exact Prod.Lex.left _ _ (by omega)

/-- This predicate, stated over the paths of the group of the row at path `row`, `depth` levels
beneath it, restated over whole paths. -/
def beneath (self : Predicate) (row : List Value) (depth : ℕ) : Option Predicate := do
  qualifiedBy (← exactly row) depth self

/-! ## What one value's predicate admits -/

lemma pointFields_eq {fields : List (String × Value)} {R : String × Value → Predicate → Prop}
    (h : ∀ kv ∈ fields, ∃ r, point kv.2 = some r ∧ R kv r) :
    ∃ m, pointFields fields = some m ∧
      List.Forall₂ (fun kv kp => kv.1 = kp.1 ∧ R kv kp.2) fields m := by
  induction fields with
  | nil => exact ⟨[], by rw [pointFields], .nil⟩
  | cons kv rest ih =>
    obtain ⟨name, field⟩ := kv
    obtain ⟨r, hr, hR⟩ := h _ mem_cons_self
    obtain ⟨m, hm, hall⟩ := ih fun kv hkv => h kv (mem_cons_of_mem _ hkv)
    exact ⟨(name, r) :: m, by rw [pointFields, hr, hm]; rfl, .cons ⟨rfl, hR⟩ hall⟩

end Point

/-- `r` is the predicate of the value `v` of the extent, alone. -/
structure IsPoint (e : Extent) (v : Value) (r : Predicate) : Prop where
  isOver : Over [e.strip] r
  mem_iff : ∀ w, Value.Spells e w → (Mem r [w.point] ↔ w = v)

/-- An interval set over a scalar's values, read at one of them. -/
lemma intervals_scalar [ScalarOps] (h : e.scalarType = some τ) {set : IntervalSet τ.Val}
    (hset : set.Valid) : ∃ r, intervals τ set = some r ∧ Over [e.strip] r ∧
      ∀ w, Value.Spells e w → ∃ u, w = .scalar τ u ∧ (Mem r [w.point] ↔ set.Mem (.here u)) := by
  have hown := Extent.resolve_eq_of_scalarType h
  have hstrip : e.strip.resolve.scalarType = some τ := by
    rw [Extent.strip_of_scalarType h, hown, h]
  obtain ⟨r, hr, hover, _, hmem⟩ := intervals_spec hstrip hset
  refine ⟨r, hr, hover, fun w hw => ?_⟩
  have hin := inLevels_singleton.mpr hw.strip.ofExtent.point
  obtain ⟨u, rfl⟩ := hw.ofExtent.toOpen.exists_scalar (by rwa [hown])
  exact ⟨u, rfl, by rw [hmem _ hin, Value.point, mem_ofIntervals]⟩

/-- A union's predicates are over its arms as their extents are stripped. -/
lemma over_strip_union {arms : List (FieldKey × Extent)} {tags : List (FieldKey × Predicate)}
    {rest : Bool} (htags : KeysAscend tags)
    (h : ∀ kp ∈ tags, ∃ e, arms.lookup kp.1 = some e ∧ Over [e.strip] kp.2) :
    Over [(Extent.union arms).strip] (.ofUnion tags rest) := by
  rw [Extent.strip_union rfl]
  refine (over_ofUnion_iff rfl).mpr ⟨htags, fun kp hkp => ?_⟩
  obtain ⟨e, he, hover⟩ := h kp hkp
  exact ⟨e.strip, by rw [lookup_map_entry fun _ => Extent.strip, he]; rfl, hover⟩

/-- A record's predicates are over its fields as their extents are stripped. -/
lemma over_strip_record {es : List (String × Extent)} {m : List (String × Predicate)}
    (hasc : KeysAscend es) (hkeys : m.map (·.1) = es.map (·.1))
    (h : ∀ kp ∈ m, ∀ e, es.lookup kp.1 = some e → Over [e.strip] kp.2) :
    Over [(Extent.record es).strip] (.ofRecord m) := by
  rw [Extent.strip_record rfl]
  refine .ofRecord rfl (by rwa [KeysAscend, hkeys])
    (by rw [keys_map_entry fun _ => Extent.strip, hkeys]) fun k p e' hp he' => ?_
  rw [lookup_map_entry fun _ => Extent.strip] at he'
  obtain ⟨e, he, rfl⟩ := map_eq_some_iff.mp he'
  exact h (k, p) hp e he

/-- A record's value is admitted alone where each of its fields is. -/
lemma isPoint_record {es : List (String × Extent)} (hasc : KeysAscend es)
    {fields : List (String × Value)} (hkeys : fields.map (·.1) = es.map (·.1))
    {m : List (String × Predicate)}
    (hall : List.Forall₂ (fun kv kp => kv.1 = kp.1 ∧
      ∃ e, es.lookup kv.1 = some e ∧ IsPoint e kv.2 kp.2) fields m) :
    IsPoint (.record es) (.record fields) (.ofRecord m) := by
  have hmkeys : fields.map (·.1) = m.map (·.1) := keys_eq_of_forall₂ (fun _ _ h => h.1) hall
  have hnodup : (fields.map (·.1)).Nodup := hkeys ▸ hasc.nodup
  -- each entry is the predicate of the field of its name
  have hpoint : ∀ k p, (k, p) ∈ m → ∃ v e, fields.lookup k = some v ∧ es.lookup k = some e ∧
      IsPoint e v p := by
    intro k p hp
    obtain ⟨i, hi⟩ := mem_iff_getElem?.mp hp
    obtain ⟨kv, hkv, rfl, e, hk, hspec⟩ := forall₂_getElem? hall.flip hi
    exact ⟨kv.2, e, (lookup_eq_some_iff_mem hnodup).mpr (mem_of_getElem? hkv), hk, hspec⟩
  refine ⟨over_strip_record hasc (hmkeys.symm.trans hkeys) fun kp hp e he => ?_, fun w hw => ?_⟩
  · obtain ⟨_, _, _, hk, hspec⟩ := hpoint kp.1 kp.2 hp
    exact mem_unique hk he ▸ hspec.isOver
  · cases hw with
    | scalar h _ => cases h
    | @record _ wfields hwkeys hw =>
      rw [Value.point, mem_ofRecord, Value.record.injEq]
      constructor
      · intro hmem
        refine eq_of_lookup_eq (hwkeys.trans hkeys.symm) (hwkeys ▸ hasc.nodup) fun k => ?_
        cases hv : fields.lookup k with
        | none =>
          rw [lookup_eq_none_iff_not_mem_keys] at hv ⊢
          rwa [hwkeys, ← hkeys]
        | some v =>
          obtain ⟨p, hp⟩ := exists_lookup_of_keys_eq hmkeys (mem_of_lookup_eq_some hv)
          have hp := mem_of_lookup_eq_some hp
          obtain ⟨v', e, hv', hk, hspec⟩ := hpoint k p hp
          obtain rfl := mem_unique hv hv'
          obtain ⟨w, hw'⟩ := exists_lookup_of_keys_eq hwkeys.symm (mem_of_lookup_eq_some hk)
          have hmem := hmem k p hp
          rw [Value.fieldPoint_eq hw', hspec.mem_iff w (hw k e w hk hw')] at hmem
          rw [hw', hmem]
      · rintro rfl k p hp
        obtain ⟨v, e, hv, hk, hspec⟩ := hpoint k p hp
        rw [Value.fieldPoint_eq hv]
        exact (hspec.mem_iff v (hw k e v hk hv)).mpr rfl

section PointSpec

variable [ScalarOps] [∀ τ : ScalarType, IntervalOps.LawfulNew τ.Val]

lemma point_scalar (h : e.scalarType = some τ) (v : τ.Val) :
    ∃ r, point (.scalar τ v) = some r ∧ IsPoint e (.scalar τ v) r := by
  -- the interval from `v` to `v`
  have hvalid : IntervalSet.Valid [Interval.newFinite ⟨false, v⟩ ⟨false, v⟩] :=
    IntervalSet.Ascending.valid ⟨by simpa using Interval.newFinite_closed_proper le_rfl, by simp⟩
  obtain ⟨r, hr, hover, hmem⟩ := intervals_scalar h (IntervalOps.LawfulNew.new_valid hvalid)
  refine ⟨r, by rw [point, hr], hover, fun w hw => ?_⟩
  obtain ⟨u, rfl, hu⟩ := hmem w hw
  rw [hu, IntervalOps.LawfulNew.mem_new hvalid (show (Point.here u).Valid from trivial),
    Interval.mem_newFinite_closed, ← le_antisymm_iff]
  simp [eq_comm]

/-- **`point` admits its value alone.** -/
theorem point_spec (he : e.WellFormed) (hv : v.Spells e) :
    ∃ r, point v = some r ∧ IsPoint e v r := by
  induction hv with
  | scalar h v => exact point_scalar h v
  | unit =>
    refine ⟨.tt, by rw [point], .tt, fun w hw => ?_⟩
    cases hw with
    | scalar h _ => cases h
    | unit => simp
  | @record es fields hkeys hfields ih =>
    obtain ⟨hasc, hwf⟩ := he.record_fields rfl
    have hentry : ∀ kv ∈ fields, ∃ r, point kv.2 = some r ∧
        ∃ e, es.lookup kv.1 = some e ∧ IsPoint e kv.2 r := by
      intro kv hkv
      obtain ⟨e, hk⟩ := exists_lookup_of_keys_eq hkeys hkv
      have hfield := (lookup_eq_some_iff_mem (hkeys ▸ hasc.nodup)).mpr hkv
      obtain ⟨r, hr, hspec⟩ := ih kv.1 e kv.2 hk hfield (hwf _ _ hk)
      exact ⟨r, hr, e, hk, hspec⟩
    obtain ⟨m, hm, hall⟩ := pointFields_eq hentry
    exact ⟨.ofRecord m, by rw [point, hm]; rfl, isPoint_record hasc hkeys hall⟩
  | @union arms tag e inner htag hinner ih =>
    obtain ⟨r, hr, hspec⟩ := ih (he.union_arms rfl tag e htag)
    have hover : Over [(Extent.union arms).strip] (.ofUnion [(tag, r)] false) :=
      over_strip_union (by simp [KeysAscend]) (by simpa using ⟨e, htag, hspec.isOver⟩)
    obtain ⟨r', hr', hover', _, hmem⟩ := tagged_spec hover
    refine ⟨r', ?_, hover', fun w hw => ?_⟩
    · rw [point, hr]
      simp only [bind_eq_bind, bind_some]
      rw [fromArms_eq_some (by simp [KeysAscend]), bind_some, hr']
    · rw [hmem _ (inLevels_singleton.mpr hw.strip.ofExtent.point)]
      cases hw with
      | scalar h _ => cases h
      | @union _ t e' w ht hw =>
        rw [Value.point, mem_ofUnion_some, atTag, Value.union.injEq]
        by_cases htt : t = tag
        · subst htt
          obtain rfl := mem_unique ht htag
          simpa using hspec.mem_iff w hw
        · simp [lookup_cons_of_ne htt, htt]
  | dataSourceDomain _ ih =>
    cases he with
    | dataSourceDomain he =>
      obtain ⟨r, hr, hover, hmem⟩ := ih he
      exact ⟨r, hr, hover, fun w hw => hmem w (spells_resolve_iff.mpr hw)⟩
  | restricted _ ih =>
    cases he with
    | restricted he =>
      obtain ⟨r, hr, hover, hmem⟩ := ih he
      exact ⟨r, hr, hover, fun w hw => hmem w (spells_resolve_iff.mpr hw)⟩

/-- **`exactly` admits its path alone.** -/
theorem exactly_spec (hl : ∀ e ∈ levels, e.WellFormed) {row : List Value}
    (hrow : SpellsPath levels row) :
    ∃ r, exactly row = some r ∧ Encloses (levels.map Extent.strip) r ∧
      ∀ path, SpellsPath levels path → (Mem r (path.map Value.point) ↔ path = row) := by
  induction hrow with
  | nil =>
    refine ⟨.tt, rfl, encloses_tt _, fun path hpath => ?_⟩
    cases hpath
    simp
  | @cons own key above keys hkey _ ih =>
    obtain ⟨rows, hrows, hencl, hmem⟩ := ih fun e he => hl e (by simp [he])
    obtain ⟨r, hr, hspec⟩ := point_spec (hl own (by simp)) hkey
    obtain ⟨hover, hqmem⟩ := qualified_spec hencl hspec.isOver
    refine ⟨_, by rw [exactly, hrows, hr]; rfl, .inr hover, fun path hpath => ?_⟩
    cases hpath with
    | @cons _ w _ rest hw hrest =>
      have hin : SpellsPath above rest := hrest
      rw [map_cons, hqmem _ _ hin.strip.valuesOf.inLevels, hmem rest hrest,
        hspec.mem_iff w hw, List.cons.injEq]
      exact and_comm

end PointSpec

/-! ## A statement under the rows it is attached to -/

section QualifiedBy

variable [ScalarOps]

lemma qualifiedBy_ofOr (rows : Predicate) (depth : ℕ) (arms : List Predicate) :
    qualifiedBy rows depth (.ofOr arms) = unionOver (qualifiedBy rows depth) arms := by
  rw [qualifiedBy]
  exact unionOver_attach _

lemma qualifiedBy_zero (rows : Predicate) (hff : p ≠ .ff) (hor : p.isOr = false)
    (hq : p.isQualified = false) : qualifiedBy rows 0 p = some (qualified rows p) := by
  cases p <;> simp_all [qualifiedBy, isOr, isQualified]

lemma qualifiedBy_succ (rows : Predicate) (depth : ℕ) (hff : p ≠ .ff) (hor : p.isOr = false)
    (hq : p.isQualified = false) :
    qualifiedBy rows (depth + 1) p = do return qualified (← qualifiedBy rows depth .tt) p := by
  cases p <;> simp_all [qualifiedBy, isOr, isQualified]

/-- **`qualified_by` admits the paths of the rows extended by paths of the statement.** -/
theorem qualifiedBy_spec {outer : List Extent} {rows : Predicate} (hrows : Encloses outer rows)
    {own : Extent} {above : List Extent} (hl : ∀ e ∈ own :: above ++ outer, e.WellFormed)
    (hp : Over (own :: above) p) :
    Returns (own :: above ++ outer) (fun _ => True) (qualifiedBy rows above.length p)
      (fun x => Mem p (x.take (above.length + 1)) ∧ Mem rows (x.drop (above.length + 1))) := by
  have hS : ∀ (n : ℕ) (arms : List Predicate) (x : List KeyPoint),
      (Mem (.ofOr arms) (x.take n) ∧ Mem rows (x.drop n)) ↔
        ∃ a ∈ arms, Mem a (x.take n) ∧ Mem rows (x.drop n) := by
    intro n arms x
    rw [mem_ofOr]
    tauto
  induction above generalizing own p with
  | nil =>
    -- the group's own level: no arm is qualified
    refine returns_of_atoms (S := fun p x => Mem p (x.take 1) ∧ Mem rows (x.drop 1))
      (atoms_of_levels (by simp) hl) (by simp) (qualifiedBy_ofOr rows 0) (hS 1)
      (fun p hor hp => ?_) hp
    by_cases hff : p = .ff
    · subst hff
      exact ⟨.ff, by rw [qualifiedBy], .ff, trivial, fun x _ => by simp⟩
    have hq : p.isQualified = false := by
      cases hp with
      | ofQualified hne _ _ => exact absurd rfl hne
      | _ => rfl
    obtain ⟨hover, hmem⟩ := qualified_spec hrows hp
    refine ⟨_, qualifiedBy_zero rows hff hor hq, hover, trivial, fun x hx => ?_⟩
    obtain ⟨k, ks, rfl, _, hks⟩ := hx.exists_cons
    rw [hmem k ks hks]
    simp [and_comm]
  | cons next above ih =>
    have hlrest : ∀ e ∈ next :: above ++ outer, e.WellFormed := fun e he =>
      hl e (mem_cons_of_mem _ he)
    rw [length_cons]
    refine returns_of_atoms (S := fun p x => Mem p (x.take (above.length + 2)) ∧
        Mem rows (x.drop (above.length + 2))) (atoms_of_levels (by simp) hl) (by simp)
      (qualifiedBy_ofOr rows (above.length + 1)) (hS (above.length + 2)) (fun p hor hp => ?_) hp
    by_cases hff : p = .ff
    · subst hff
      exact ⟨.ff, by rw [qualifiedBy], .ff, trivial, fun x _ => by simp⟩
    obtain ⟨he, hh, hsplit⟩ := split_spec hp (by simp [hor])
    have heover := he.resolve_left fun h => by simp at h
    obtain ⟨r, hr, hover, _, hmem⟩ := ih hlrest heover
    obtain ⟨hqover, hqmem⟩ := qualified_spec (.inr hover) hh
    refine ⟨_, ?_, hqover, trivial, fun x hx => ?_⟩
    · cases hq : p.isQualified with
      | true =>
        cases p with
        | ofQualified e h =>
          rw [qualifiedBy]
          simp only [splitQualification] at hr ⊢
          rw [hr]
          rfl
        | _ => cases hq
      | false =>
        rw [splitQualification_eq hq] at hr ⊢
        rw [qualifiedBy_succ rows _ hff hor hq, hr]
        rfl
    · obtain ⟨k, ks, rfl, _, hks⟩ := hx.exists_cons
      simp only [hqmem k ks hks, hmem ks hks, take_succ_cons, drop_succ_cons, hsplit]
      tauto

end QualifiedBy

end Predicate

end Cambra
