import Cambra.Tiling.Beneath

/-!
# Prefixes of a key's order

Values of one extent are ordered (`Value.partialCmp`, the `PartialOrd` of `value.rs`): records by
their fields in the order of the names, unions by the tag and then within it.  `up_to` spells the
keys at or below a value, or strictly below it, as a predicate.  Of a record that is a staircase:
one step for each field, which agrees with the value on the fields before and lies below it there.
Of a union it is the tags before the value's own, and part of that one; a union's tags are not to
be read off a value, so the extent has to be given.

`upTo_spec` says that the predicate admits the keys in order before the value, for an extent whose
unions can all be read off what is given (`Extent.TagsNamed`), or which has none
(`Extent.UnionFree`).
-/

namespace Cambra

open List

/-! ## The order of values -/

variable {inclusive : Bool} {v : Value} {vs ws : List (String × Value)} {e : Extent}
  {given : Option Extent}

namespace Value

mutual

/-- How two values compare, where they do. -/
def partialCmp : Value → Value → Option Ordering
  | .scalar τ v, .scalar τ' v' => if h : τ = τ' then some (compare (h ▸ v) v') else none
  | .unit, .unit => some .eq
  | .record fields, .record fields' =>
    -- records with different fields do not compare
    if fields.map (·.1) = fields'.map (·.1) then partialCmpFields fields fields' else none
  | .union tag inner, .union tag' inner' =>
    match compare tag tag' with
    | .eq => partialCmp inner inner'
    | other => some other
  | _, _ => none

/-- How two lists of entries compare, the first difference deciding. -/
def partialCmpFields : List (String × Value) → List (String × Value) → Option Ordering
  | [], [] => some .eq
  | [], _ :: _ => some .lt
  | _ :: _, [] => some .gt
  | (name, v) :: rest, (name', v') :: rest' =>
    match compare name name' with
    | .eq =>
      match partialCmp v v' with
      | some .eq => partialCmpFields rest rest'
      | other => other
    | other => some other

end

/-- `w` comes before `v`, or is `v` where the bound is inclusive. -/
def Within (inclusive : Bool) (w v : Value) : Prop :=
  partialCmp w v = some .lt ∨ inclusive = true ∧ partialCmp w v = some .eq

lemma partialCmp_scalar {τ : ScalarType} (w v : τ.Val) :
    partialCmp (.scalar τ w) (.scalar τ v) = some (compare w v) := by simp [partialCmp]

variable {w : Value}

lemma partialCmpFields_cons {name : String} : partialCmpFields ((name, w) :: ws) ((name, v) :: vs) =
      match partialCmp w v with
      | some .eq => partialCmpFields ws vs
      | other => other := by simp [partialCmpFields]

mutual

lemma partialCmp_eq_iff : ∀ {w v : Value}, partialCmp w v = some .eq ↔ w = v
  | .scalar τ w, .scalar τ' v => by
    by_cases h : τ = τ'
    · subst h
      simp [partialCmp]
    · simp [partialCmp, h]
  | .unit, .unit => by simp [partialCmp]
  | .record ws, .record vs => by
    have hfields := @partialCmpFields_eq_iff ws vs
    by_cases h : ws.map (·.1) = vs.map (·.1)
    · simpa [partialCmp, h] using hfields
    · have hne : ws ≠ vs := fun heq => h (heq ▸ rfl)
      simp [partialCmp, h, hne]
  | .union tag w, .union tag' v => by
    have hinner := partialCmp_eq_iff (w := w) (v := v)
    rw [partialCmp]
    rcases hcmp : compare tag tag' with _ | _ | _
    · have hne : tag ≠ tag' := (compare_lt_iff_lt.mp hcmp).ne
      simp [hne]
    · simpa [compare_eq_iff_eq.mp hcmp] using hinner
    · have hne : tag ≠ tag' := (compare_gt_iff_gt.mp hcmp).ne'
      simp [hne]
  | .scalar _ _, .unit | .scalar _ _, .record _ | .scalar _ _, .union _ _ | .unit, .scalar _ _
  | .unit, .record _ | .unit, .union _ _ | .record _, .scalar _ _ | .record _, .unit
  | .record _, .union _ _ | .union _ _, .scalar _ _ | .union _ _, .unit
  | .union _ _, .record _ => by
    simp [partialCmp]

lemma partialCmpFields_eq_iff : ∀ {ws vs : List (String × Value)},
    partialCmpFields ws vs = some .eq ↔ ws = vs
  | [], [] | [], _ :: _ | _ :: _, [] => by simp [partialCmpFields]
  | (name, w) :: ws, (name', v) :: vs => by
    have hfirst := partialCmp_eq_iff (w := w) (v := v)
    have hrest := @partialCmpFields_eq_iff ws vs
    rcases hcmp : compare name name' with _ | _ | _
    · have hne : name ≠ name' := (compare_lt_iff_lt.mp hcmp).ne
      simp [partialCmpFields, hcmp, hne]
    · obtain rfl := compare_eq_iff_eq.mp hcmp
      rw [partialCmpFields_cons, List.cons.injEq, Prod.mk.injEq, ← hfirst, ← hrest]
      rcases partialCmp w v with _ | _ | _ | _ <;> simp
    · have hne : name ≠ name' := (compare_gt_iff_gt.mp hcmp).ne'
      simp [partialCmpFields, hcmp, hne]

end

lemma partialCmpFields_cons_lt_iff {name : String} :
    partialCmpFields ((name, w) :: ws) ((name, v) :: vs) = some .lt ↔
      partialCmp w v = some .lt ∨ w = v ∧ partialCmpFields ws vs = some .lt := by
  rw [partialCmpFields_cons, ← partialCmp_eq_iff]
  rcases partialCmp w v with _ | _ | _ | _ <;> simp

lemma within_iff : Within inclusive w v ↔ partialCmp w v = some .lt ∨ inclusive = true ∧ w = v := by
  rw [Within, partialCmp_eq_iff]

end Value

/-! ## What an extent tells of its unions -/

/-- No value of the extent has a tag. -/
inductive Extent.UnionFree : Extent → Prop
  | base {b : BaseType} : UnionFree (.base b)
  | function {d c : Extent} : UnionFree (.function d c)
  | record {es : List (String × Extent)} (h : ∀ k e, es.lookup k = some e → UnionFree e) :
      UnionFree (.record es)
  | uintRange : UnionFree .uintRange
  | dataSourceDomain {e : Extent} (h : UnionFree e) : UnionFree (.dataSourceDomain e)
  | restricted {e : Extent} (h : UnionFree e) : UnionFree (.restricted e)

/-- Every union of the extent is reached through records and unions: none is behind a wrapper. -/
inductive Extent.TagsNamed : Extent → Prop
  | of_unionFree {e : Extent} (h : e.UnionFree) : TagsNamed e
  | record {es : List (String × Extent)} (h : ∀ k e, es.lookup k = some e → TagsNamed e) :
      TagsNamed (.record es)
  | union {arms : List (FieldKey × Extent)} (h : ∀ k e, arms.lookup k = some e → TagsNamed e) :
      TagsNamed (.union arms)

/-- The extent given for a bound tells the tags of the unions of `e`. -/
def Extent.Tells (given : Option Extent) (e : Extent) : Prop :=
  e.UnionFree ∨ given = some e ∧ e.TagsNamed

/-- Behind a wrapper nothing is told, so there is nothing to tell. -/
lemma Extent.Tells.behind_dataSourceDomain (h : Extent.Tells given (.dataSourceDomain e)) :
    e.UnionFree := by
  have hfree : (Extent.dataSourceDomain e).UnionFree := by
    rcases h with hfree | ⟨_, hnamed⟩
    · exact hfree
    · cases hnamed with
      | of_unionFree hfree => exact hfree
  cases hfree with
  | dataSourceDomain hfree => exact hfree

lemma Extent.Tells.behind_restricted (h : Extent.Tells given (.restricted e)) : e.UnionFree := by
  have hfree : (Extent.restricted e).UnionFree := by
    rcases h with hfree | ⟨_, hnamed⟩
    · exact hfree
    · cases hnamed with
      | of_unionFree hfree => exact hfree
  cases hfree with
  | restricted hfree => exact hfree

namespace Predicate

section Prefix

variable [ScalarOps]

/-! ## The predicates of a prefix -/

/-- The extents of the fields, where a record is given. -/
def fieldExtents : Option Extent → Option (List (String × Extent))
  | some (.record es) => some es
  | _ => none

mutual

/-- Everything ordered below `v`, and `v` itself where the bound is inclusive. -/
def upTo : Value → Bool → Option Extent → Option Predicate
  | .union tag inner, inclusive, extent =>
    match extent with
    | some (.union arms) => do
      -- the tags before the bound's own are taken whole, and those after it not at all
      let tags ← (arms.filter fun arm => decide (arm.1 ≤ tag)).mapM fun arm =>
        if arm.1 < tag then some (arm.1, .tt)
        else do return (arm.1, ← upTo inner inclusive (some arm.2))
      tagged (← TagMap.fromArms tags) false
    | _ => none
  | .unit, inclusive, _ => some (if inclusive then .tt else .ff)
  | .scalar τ v, inclusive, _ => intervals τ (IntervalOps.new [⟨none, some ⟨!inclusive, v⟩⟩])
  | .record fields, inclusive, extent => do
    let steps := ((← upToSteps fields inclusive (fieldExtents extent)).map .ofRecord).filter
      fun step => !step.isFalse
    -- a record with no fields has one value
    if steps.isEmpty then some (if fields.isEmpty && inclusive then .tt else .ff)
    else flattenOr steps

/-- The steps of a record's prefix.  Step `i` agrees with the record on the fields before `i`, lies
below it on field `i`, and admits anything after; the last takes the field's own value too where the
bound is inclusive. -/
def upToSteps : List (String × Value) → Bool → Option (List (String × Extent)) →
    Option (List (List (String × Predicate)))
  | [], _, _ => some []
  | (name, field) :: rest, inclusive, extents => do
    let own ← upTo field (inclusive && rest.isEmpty) (extents.bind (·.lookup name))
    let later ← (← upToSteps rest inclusive extents).mapM fun step => do
      return (name, ← point field) :: step
    return ((name, own) :: rest.map fun kv => (kv.1, .tt)) :: later

end

/-- Everything ordered at or below `v`. -/
def atOrBelow (v : Value) : Option Predicate := upTo v true none

/-- Everything ordered at or below `v`, over the domain `extent`. -/
def atOrBelowIn (v : Value) (extent : Extent) : Option Predicate := upTo v true (some extent)

/-- Everything ordered strictly below `v`, over the domain `extent`. -/
def belowIn (v : Value) (extent : Extent) : Option Predicate := upTo v false (some extent)

/-- Everything ordered strictly below `v`. -/
def below_ (v : Value) : Option Predicate := upTo v false none

end Prefix

/-! ## What a prefix admits -/

/-- `r` is the predicate of the keys of the extent before `v`, and of `v` where `inclusive`. -/
structure IsPrefix (e : Extent) (v : Value) (inclusive : Bool) (r : Predicate) : Prop where
  isOver : Over [e.strip] r
  mem_iff : ∀ w, Value.Spells e w → (Mem r [w.point] ↔ Value.Within inclusive w v)

variable {es : List (String × Extent)}

section PrefixSpec

variable [ScalarOps]

/-! ### Unions -/

/-- **A prefix of a union**: the tags before, and part of the bound's own. -/
lemma upTo_union {arms : List (FieldKey × Extent)} (hasc : KeysAscend arms) {tag : FieldKey}
    (htag : arms.lookup tag = some e) {inner : Value}
    (h : ∃ r, upTo inner inclusive (some e) = some r ∧ IsPrefix e inner inclusive r) :
    ∃ r, upTo (.union tag inner) inclusive (some (.union arms)) = some r ∧
      IsPrefix (.union arms) (.union tag inner) inclusive r := by
  obtain ⟨own, hown, hspec⟩ := h
  -- the tags up to the bound's own, and what is taken of each
  let tags := (arms.filter fun arm => decide (arm.1 ≤ tag)).map fun arm =>
    (arm.1, if arm.1 < tag then Predicate.tt else own)
  have hmap : (arms.filter fun arm => decide (arm.1 ≤ tag)).mapM (fun arm =>
      if arm.1 < tag then some (arm.1, .tt)
      else do return (arm.1, ← upTo inner inclusive (some arm.2))) = some tags := by
    refine (mapM_congr fun arm harm => ?_).trans mapM_pure
    obtain ⟨harm, hle⟩ := mem_filter.mp harm
    rcases lt_or_eq_of_le (of_decide_eq_true hle) with hlt | heq
    · simp [hlt]
    · have hlook := (lookup_eq_some_iff_mem hasc.nodup).mpr harm
      rw [heq, htag] at hlook
      simp [heq, ← Option.some.inj hlook, hown]
  have hlook : ∀ t, tags.lookup t =
      if t ≤ tag then (arms.lookup t).map fun _ => if t < tag then .tt else own else none := by
    intro t
    rw [lookup_map_entry fun k _ => if k < tag then Predicate.tt else own,
      lookup_filter_key fun k => decide (k ≤ tag)]
    by_cases hle : t ≤ tag <;> simp [hle]
  have htags : KeysAscend tags := by
    rw [KeysAscend, keys_map_entry fun k _ => if k < tag then Predicate.tt else own]
    exact hasc.filter _
  have hover : Over [(Extent.union arms).strip] (.ofUnion tags false) := by
    refine over_strip_union htags (forall_mem_map.mpr fun arm harm => ?_)
    obtain ⟨harm, hle⟩ := mem_filter.mp harm
    have he := (lookup_eq_some_iff_mem hasc.nodup).mpr harm
    refine ⟨arm.2, he, ?_⟩
    dsimp only
    split_ifs with hlt
    · exact .tt
    · have heq : arm.1 = tag := le_antisymm (of_decide_eq_true hle) (not_lt.mp hlt)
      exact Option.mem_unique htag (heq ▸ he) ▸ hspec.isOver
  obtain ⟨r, hr, hrover, _, hmem⟩ := tagged_spec hover
  refine ⟨r, ?_, hrover, fun w hw => ?_⟩
  · rw [upTo, hmap, Option.bind_eq_bind, Option.bind_some, fromArms_eq_some htags,
      Option.bind_some, hr]
  rw [hmem _ (inLevels_singleton.mpr hw.strip.ofExtent.point)]
  cases hw with
  | scalar h _ => cases h
  | @union _ t e' w ht hw =>
    rw [Value.point, mem_ofUnion_some, atTag, hlook t, ht, Value.Within, Value.partialCmp]
    rcases lt_trichotomy t tag with hlt | rfl | hgt
    · simp [hlt, hlt.le, compare_lt_iff_lt.mpr hlt]
    · obtain rfl := Option.mem_unique ht htag
      simpa [Value.Within] using hspec.mem_iff w hw
    · simp [hgt.not_ge, compare_gt_iff_gt.mpr hgt, ofBool]

/-! ### Records -/

/-- The fields' predicates admit the fields, in order. -/
def AdmitsFields (m : List (String × Predicate)) (ws : List (String × Value)) : Prop :=
  List.Forall₂ (fun kp kw => Mem kp.2 [kw.2.point]) m ws

omit [ScalarOps] in
lemma mem_record_iff {m : List (String × Predicate)} (hkeys : m.map (·.1) = ws.map (·.1))
    (hnodup : (ws.map (·.1)).Nodup) :
    Mem (.ofRecord m) [(Value.record ws).point] ↔ AdmitsFields m ws := by
  have hlen : m.length = ws.length := by simpa using congrArg List.length hkeys
  have hkey : ∀ i (h : i < m.length) (h' : i < ws.length),
      (m.get ⟨i, h⟩).1 = (ws.get ⟨i, h'⟩).1 := by
    intro i h h'
    have := getElem_of_eq hkeys (i := i) (by simpa using h)
    simpa using this
  have hfield : ∀ i (h' : i < ws.length),
      Value.fieldPoint ws (ws.get ⟨i, h'⟩).1 = (ws.get ⟨i, h'⟩).2.point := fun i h' =>
    Value.fieldPoint_eq ((lookup_eq_some_iff_mem hnodup).mpr (get_mem ws ⟨i, h'⟩))
  rw [Value.point, mem_ofRecord, AdmitsFields, forall₂_iff_get]
  constructor
  · intro h
    refine ⟨hlen, fun i h₁ h₂ => ?_⟩
    have hmem := h _ _ (get_mem m ⟨i, h₁⟩)
    rwa [hkey i h₁ h₂, hfield i h₂] at hmem
  · rintro ⟨_, h⟩ k p hp
    obtain ⟨i, hi⟩ := get_of_mem hp
    have h₂ : i.1 < ws.length := hlen ▸ i.2
    have hmem := h i.1 i.2 h₂
    rw [← hfield i.1 h₂, ← hkey i.1 i.2 h₂, hi] at hmem
    exact hmem

/-- What a field's bounds are, whatever is given for its unions. -/
structure FieldBounds (es : List (String × Extent)) (extents : Option (List (String × Extent)))
    (kv : String × Value) (e : Extent) : Prop where
  lookup : es.lookup kv.1 = some e
  upTo_spec : ∀ inclusive, ∃ r,
    upTo kv.2 inclusive (extents.bind (·.lookup kv.1)) = some r ∧ IsPrefix e kv.2 inclusive r
  point_spec : ∃ r, point kv.2 = some r ∧ IsPoint e kv.2 r

omit [ScalarOps] in
lemma admitsFields_cons {m : List (String × Predicate)} {kp : String × Predicate}
    {kw : String × Value} :
    AdmitsFields (kp :: m) (kw :: ws) ↔ Mem kp.2 [kw.2.point] ∧ AdmitsFields m ws :=
  forall₂_cons

omit [ScalarOps] in
lemma admitsFields_tt (h : ws.map (·.1) = vs.map (·.1)) :
    AdmitsFields (vs.map fun kv => (kv.1, .tt)) ws := by
  have hlen : vs.length = ws.length := by simpa using (congrArg List.length h).symm
  rw [AdmitsFields, forall₂_map_left_iff, forall₂_iff_get]
  exact ⟨hlen, fun i _ _ => by simp⟩

/-- **The steps of a record's prefix** admit together the fields in order before the bound's. -/
lemma upToSteps_spec {extents : Option (List (String × Extent))}
    (h : ∀ kv ∈ vs, ∃ e, FieldBounds es extents kv e) :
    ∃ steps, upToSteps vs inclusive extents = some steps ∧
      (∀ step ∈ steps, step.map (·.1) = vs.map (·.1) ∧
        ∀ kp ∈ step, ∀ e, es.lookup kp.1 = some e → Over [e.strip] kp.2) ∧
      ∀ ws, ws.map (·.1) = vs.map (·.1) →
        (∀ k w e, (k, w) ∈ ws → es.lookup k = some e → w.Spells e) →
        ((∃ step ∈ steps, AdmitsFields step ws) ↔ Value.partialCmpFields ws vs = some .lt ∨
            inclusive = true ∧ vs ≠ [] ∧ Value.partialCmpFields ws vs = some .eq) := by
  induction vs with
  | nil =>
    refine ⟨[], by rw [upToSteps], by simp, fun ws hws _ => ?_⟩
    obtain rfl : ws = [] := by simpa using hws
    simp [Value.partialCmpFields]
  | cons kv rest ih =>
    obtain ⟨name, field⟩ := kv
    obtain ⟨e, hlook, hup, hpt⟩ := h (name, field) (by simp)
    obtain ⟨own, hown, hbound⟩ := hup (inclusive && rest.isEmpty)
    obtain ⟨p, hp, hpoint⟩ := hpt
    obtain ⟨later, hlater, hover, hmem⟩ := ih fun kv hkv => h kv (by simp [hkv])
    have hmap : later.mapM (fun step => (point field).bind fun q => some ((name, q) :: step)) =
        some (later.map fun step => (name, p) :: step) := by
      simp only [hp, Option.bind_some]
      exact mapM_pure
    refine ⟨((name, own) :: rest.map fun kv => (kv.1, .tt)) ::
      later.map fun step => (name, p) :: step, ?_, ?_, fun ws hws hspell => ?_⟩
    · simp [upToSteps, hown, hlater, hmap]
    · intro step hstep
      rcases List.mem_cons.mp hstep with rfl | hstep
      · exact ⟨by simp, forall_mem_cons.mpr
          ⟨fun e' he' => Option.mem_unique hlook he' ▸ hbound.isOver,
            forall_mem_map.mpr fun _ _ _ _ => .tt⟩⟩
      · obtain ⟨step, hmem, rfl⟩ := mem_map.mp hstep
        obtain ⟨hkeys, hstepover⟩ := hover step hmem
        exact ⟨by simp [hkeys], forall_mem_cons.mpr
          ⟨fun e' he' => Option.mem_unique hlook he' ▸ hpoint.isOver, hstepover⟩⟩
    · obtain ⟨⟨name', w⟩, ws, rfl⟩ : ∃ kw ws', ws = kw :: ws' :=
        exists_cons_of_ne_nil (by rintro rfl; simp at hws)
      obtain ⟨rfl, hrest⟩ := List.cons.inj hws
      have hw : w.Spells e := hspell _ _ _ (by simp) hlook
      have hlater := hmem ws hrest fun k w e hkw he => hspell k w e (by simp [hkw]) he
      -- the first step decides on the first field, the others agree on it
      have hsplit : (∃ step ∈ ((name', own) :: rest.map fun kv => (kv.1, .tt)) ::
          later.map fun step => (name', p) :: step, AdmitsFields step ((name', w) :: ws)) ↔
          Value.Within (inclusive && rest.isEmpty) w field ∨
            w = field ∧ ∃ step ∈ later, AdmitsFields step ws := by
        simp only [List.mem_cons, mem_map, exists_eq_or_imp, exists_exists_and_eq_and,
          admitsFields_cons, hbound.mem_iff w hw, hpoint.mem_iff w hw, admitsFields_tt hrest,
          and_true, and_left_comm, exists_and_left]
      rw [hsplit, hlater, Value.within_iff, Value.partialCmpFields_cons_lt_iff,
        Value.partialCmpFields_eq_iff, Value.partialCmpFields_eq_iff]
      cases rest with
      | nil =>
        obtain rfl : ws = [] := by simpa using hrest
        simp [Value.partialCmpFields]
      | cons kv rest =>
        simp only [isEmpty_cons, Bool.and_false, Bool.false_eq_true, false_and, or_false,
          ne_eq, reduceCtorEq, not_false_eq_true, true_and, List.cons.injEq, Prod.mk.injEq]
        rw [and_or_left, ← or_assoc, and_left_comm]

/-- **A prefix of a record** is its staircase. -/
lemma upTo_record (hasc : KeysAscend es) (hkeys : vs.map (·.1) = es.map (·.1))
    (h : ∀ kv ∈ vs, ∃ e, FieldBounds es (fieldExtents given) kv e)
    (hwf : (Extent.record es).strip.WellFormed) :
    ∃ r, upTo (.record vs) inclusive given = some r ∧
      IsPrefix (.record es) (.record vs) inclusive r := by
  obtain ⟨steps, hsteps, hover, hmem⟩ := upToSteps_spec h
  set kept := (steps.map Predicate.ofRecord).filter fun step => !step.isFalse with hkept
  have hstep : ∀ step ∈ steps, Over [(Extent.record es).strip] (.ofRecord step) := by
    intro step hs
    obtain ⟨hstepkeys, hfields⟩ := hover step hs
    exact over_strip_record hasc (hstepkeys.trans hkeys) hfields
  have hkeptOver : ∀ q ∈ kept, Over [(Extent.record es).strip] q := by
    intro q hq
    exact forall_mem_map.mpr hstep q (mem_filter.mp hq).1
  -- a record before the bound is admitted by a step that is kept
  have hadmits : ∀ {w : Value}, w.Spells (.record es) → ((∃ q ∈ kept, Mem q [w.point]) ↔
      Value.partialCmp w (.record vs) = some .lt ∨
        inclusive = true ∧ vs ≠ [] ∧ w = .record vs) := by
    intro w hw
    cases hw with
    | scalar h _ => cases h
    | @record _ ws hws hfields =>
      have hwskeys := hws.trans hkeys.symm
      have hnodup : (ws.map (·.1)).Nodup := hws ▸ hasc.nodup
      have hspell : ∀ k w e, (k, w) ∈ ws → es.lookup k = some e → w.Spells e := fun k w e hkw he =>
        hfields k e w he ((lookup_eq_some_iff_mem hnodup).mpr hkw)
      have hiff := hmem ws hwskeys hspell
      rw [Value.partialCmpFields_eq_iff] at hiff
      rw [Value.partialCmp, if_pos hwskeys, Value.record.injEq, ← hiff]
      rw [exists_mem_not_isFalse (forall_mem_map.mpr hstep)]
      simp only [mem_map, exists_exists_and_eq_and]
      exact exists_congr fun step => and_congr_right fun hs =>
        mem_record_iff ((hover step hs).1.trans hwskeys.symm) hnodup
  have hupTo : upTo (.record vs) inclusive given =
      if kept.isEmpty then some (if vs.isEmpty && inclusive then .tt else .ff)
      else flattenOr kept := by
    rw [upTo, hsteps]
    rfl
  by_cases hempty : kept = []
  · refine ⟨if vs.isEmpty && inclusive then .tt else .ff, by simp [hupTo, hempty], ?_, ?_⟩
    · split_ifs
      · exact .tt
      · exact .ff
    · intro w hw
      have hnone := hadmits hw
      simp only [hempty, List.not_mem_nil, false_and, exists_false, false_iff, not_or] at hnone
      rw [Value.within_iff, or_iff_right hnone.1]
      cases vs with
      | nil =>
        cases hw with
        | scalar h _ => cases h
        | @record _ ws hws _ =>
          obtain rfl : ws = [] := by simpa using hws.trans hkeys.symm
          cases inclusive <;> simp
      | cons kv vs => simpa using hnone.2
  · have hlevels : ∀ e ∈ [(Extent.record es).strip], e.WellFormed := by simpa using hwf
    obtain ⟨r, hr, hrover, _, hrmem⟩ :=
      (atoms_of_levels (by simp) hlevels).flattenOr_spec hempty hkeptOver
    refine ⟨r, by simpa [hupTo, hempty] using hr, hrover, fun w hw => ?_⟩
    have hne : vs ≠ [] := by
      rintro rfl
      rw [upToSteps, Option.some.injEq] at hsteps
      simp [hkept, ← hsteps] at hempty
    rw [hrmem _ (inLevels_singleton.mpr hw.strip.ofExtent.point)]
    refine (hadmits hw).trans ?_
    rw [Value.within_iff]
    simp [hne]

end PrefixSpec

section Scalars

variable [ScalarOps] [∀ τ : ScalarType, IntervalOps.LawfulNew τ.Val]

lemma upTo_scalar {τ : ScalarType} (h : e.scalarType = some τ) (v : τ.Val) (inclusive : Bool)
    (given : Option Extent) :
    ∃ r, upTo (.scalar τ v) inclusive given = some r ∧ IsPrefix e (.scalar τ v) inclusive r := by
  -- everything up to `v`
  have hvalid : IntervalSet.Valid [(⟨none, some ⟨!inclusive, v⟩⟩ : Interval τ.Val)] := by
    refine ⟨?_, by simp, by simp⟩
    simp only [mem_singleton, forall_eq]
    exact ⟨by simp [Interval.normalized],
      by simp [Interval.normalized, Bound.normalized_normalized], by simp [Interval.normalized]⟩
  obtain ⟨r, hr, hover, hmem⟩ := intervals_scalar h (IntervalOps.LawfulNew.new_valid hvalid)
  refine ⟨r, by rw [upTo, hr], hover, fun w hw => ?_⟩
  obtain ⟨u, rfl, hu⟩ := hmem w hw
  rw [hu, IntervalOps.LawfulNew.mem_new hvalid (show (Point.here u).Valid from trivial),
    Value.within_iff, Value.partialCmp_scalar]
  simp only [Interval.Mem, Option.mem_def, reduceCtorEq, false_implies, implies_true,
    Option.some.injEq, forall_eq', true_and, Bound.Holds, Value.scalar.injEq, heq_eq_eq,
    compare_lt_iff_lt]
  cases inclusive with
  | true => simp [Point.Gt, le_iff_lt_or_eq]
  | false => simp [Point.Lt]

omit [ScalarOps] [∀ τ : ScalarType, IntervalOps.LawfulNew τ.Val] in
lemma tells_field (h : Extent.Tells given (.record es)) {k : String} (he : es.lookup k = some e) :
    Extent.Tells ((fieldExtents given).bind (·.lookup k)) e := by
  rcases h with hfree | ⟨rfl, hnamed⟩
  · cases hfree with
    | record h => exact .inl (h k e he)
  · refine .inr ⟨by simp [fieldExtents, he], ?_⟩
    cases hnamed with
    | of_unionFree hfree =>
      cases hfree with
      | record h => exact .of_unionFree (h k e he)
    | record h => exact h k e he

/-- **A prefix admits the keys in order before its bound**, and the bound where it is inclusive. -/
theorem upTo_spec (he : e.WellFormed) (hv : v.Spells e) (inclusive : Bool)
    (hg : Extent.Tells given e) :
    ∃ r, upTo v inclusive given = some r ∧ IsPrefix e v inclusive r := by
  induction hv generalizing inclusive given with
  | scalar h v => exact upTo_scalar h v inclusive given
  | unit =>
    refine ⟨if inclusive then .tt else .ff, by rw [upTo], ?_, fun w hw => ?_⟩
    · split_ifs
      · exact .tt
      · exact .ff
    · cases hw with
      | scalar h _ => cases h
      | unit =>
        rw [Value.within_iff]
        cases inclusive <;> simp [Value.partialCmp]
  | @record es vs hkeys hfields ih =>
    obtain ⟨hasc, hwf⟩ := he.record_fields rfl
    have hnodup : (vs.map (·.1)).Nodup := hkeys ▸ hasc.nodup
    refine upTo_record hasc hkeys (fun kv hkv => ?_) he.strip
    obtain ⟨e, hk⟩ := exists_lookup_of_keys_eq hkeys hkv
    have hlook := (lookup_eq_some_iff_mem hnodup).mpr hkv
    exact ⟨e, hk, fun inclusive => ih kv.1 e kv.2 hk hlook (hwf _ _ hk) inclusive
      (tells_field hg hk), point_spec (hwf _ _ hk) (hfields kv.1 e kv.2 hk hlook)⟩
  | @union arms tag e inner htag _ ih =>
    rcases hg with hfree | ⟨rfl, hnamed⟩
    · cases hfree
    · cases hnamed with
      | of_unionFree hfree => cases hfree
      | union h =>
        have hinner := ih (he.union_arms rfl tag e htag) inclusive (.inr ⟨rfl, h tag e htag⟩)
        cases he with
        | union hasc _ => exact upTo_union hasc htag hinner
  | dataSourceDomain _ ih =>
    cases he with
    | dataSourceDomain he =>
      obtain ⟨r, hr, hover, hmem⟩ := ih he inclusive (.inl hg.behind_dataSourceDomain)
      exact ⟨r, hr, hover, fun w hw => hmem w (spells_resolve_iff.mpr hw)⟩
  | restricted _ ih =>
    cases he with
    | restricted he =>
      obtain ⟨r, hr, hover, hmem⟩ := ih he inclusive (.inl hg.behind_restricted)
      exact ⟨r, hr, hover, fun w hw => hmem w (spells_resolve_iff.mpr hw)⟩

end Scalars

end Predicate

end Cambra
