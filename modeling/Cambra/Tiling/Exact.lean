import Cambra.Lib.IntervalList
import Cambra.Tiling.Algebra

/-!
# What the operations of a predicate answer on paths

The exactness of the predicate algebra read back on values: over a list of levels, for predicates
that keep the invariants of the type and are applicable there (`is_applicable_over`), every
operation and every constructor returns, what it returns is well formed and applicable again, and
`contains_path` of it is the Boolean combination of `contains_path` of its arguments
(`algebra_exact`).

Two invariants are needed that the operations do not check, and each fails without them
(`algebra_needs_invariants`): an `Or` has an arm, and an `Or` directly inside an `Or` names no
enclosing path.
-/

namespace Cambra

open Option

namespace Predicate

/-- The predicate keeps the invariants of the type and is applicable over the levels. -/
def Applies (levels : List Extent) (p : Predicate) : Prop :=
  p.WellFormed ∧ p.isApplicableOver levels = true

/-- The path is admitted. -/
def Admits (p : Predicate) (path : List Value) : Prop := p.containsPath path = some true

/-- The path is read, and refused. -/
def Refuses (p : Predicate) (path : List Value) : Prop := p.containsPath path = some false

/-- The computation returns a predicate that applies over the levels, and whose `contains_path`
answers `S` on every path of values. -/
def Answers (levels : List Extent) (o : Option Predicate) (S : List Value → Prop) : Prop :=
  ∃ r, o = some r ∧ r.Applies levels ∧
    ∀ path, ValuesOf levels path → Decides (r.containsPath path) (S path)

variable {p q : Predicate} {b : Bool}

section

variable {levels : List Extent} (hl : ∀ e ∈ levels, e.WellFormed)

include hl

lemma Applies.over (hp : p.Applies levels) : Over levels p := (over_iff hl).mpr hp

variable {path : List Value}

lemma Applies.admits_iff (hp : p.Applies levels) (hpath : ValuesOf levels path) :
    p.Admits path ↔ Mem p (path.map Value.point) := by
  obtain ⟨b, hb, hiff⟩ := containsPath_decides (hp.over hl) hpath
  simpa [Admits, hb] using hiff

lemma Applies.refuses_iff (hp : p.Applies levels) (hpath : ValuesOf levels path) :
    p.Refuses path ↔ ¬Mem p (path.map Value.point) := by
  obtain ⟨b, hb, hiff⟩ := containsPath_decides (hp.over hl) hpath
  rw [← hiff]
  simp [Refuses, hb]

omit hl in
lemma Applies.admits_key_iff {e : Extent} (he : e.WellFormed) (hp : p.Applies [e]) {v : Value}
    (hv : v.OfExtent e) : p.Admits [v] ↔ Mem p [v.point] :=
  hp.admits_iff (by simpa using he) (.cons hv .nil)

/-- A region returned over points is answered on values. -/
lemma Returns.answers {B : Predicate → Prop} {o : Option Predicate} {S : List KeyPoint → Prop}
    {T : List Value → Prop} (h : Returns levels B o S)
    (hST : ∀ path, ValuesOf levels path → (S (path.map Value.point) ↔ T path)) :
    Answers levels o T := by
  obtain ⟨r, hr, hover, _, hmem⟩ := h
  refine ⟨r, hr, (over_iff hl).mp hover, fun path hpath => ?_⟩
  refine (containsPath_decides hover hpath).congr ?_
  rw [hmem _ hpath.inLevels, hST path hpath]

end

/-! ## The constructors -/

section Constructors

variable {above : List Extent} {own : Extent} {es : List (String × Extent)}
  {fields : List (String × Predicate)}

/-- `qualified` admits the keys of `here` under the paths of `enclosing`. -/
lemma qualified_answers (hl : ∀ e ∈ own :: above, e.WellFormed) {enclosing here : Predicate}
    (he : enclosing.Applies above) (hh : here.Applies [own]) :
    Answers (own :: above) (some (qualified enclosing here)) (fun path =>
      ∃ key rest, path = key :: rest ∧ enclosing.Admits rest ∧ here.Admits [key]) := by
  have hla : ∀ e ∈ above, e.WellFormed := fun e he => hl e (by simp [he])
  have hlo : ∀ e ∈ [own], e.WellFormed := fun e he => hl e (by simp_all)
  have heo := he.over hla
  have hho := hh.over hlo
  have hbuild := (qualifiedShape heo.levels_ne_nil).build_spec (.cons heo (.cons hho .nil))
  have heq : Componentwise.build .qualified [enclosing, here] =
      some (qualified enclosing here) := by
    by_cases hf : enclosing.isFalse = true ∨ here.isFalse = true
    · rcases hf with hf | hf <;> simp [Componentwise.build, qualified, hf]
    · simp only [not_or, Bool.not_eq_true] at hf
      simp [Componentwise.build, hf.1, hf.2]
  rw [heq] at hbuild
  refine hbuild.answers hl fun path hpath => ?_
  cases hpath with
  | @cons _ key _ rest hkey hrest =>
    simp only [List.map_cons, splitPath, MemComponents, List.forall₂_cons,
      List.forall₂_nil_left_iff, and_true]
    rw [← he.admits_iff hla hrest, ← hh.admits_key_iff (hl own (by simp)) hkey]
    constructor
    · exact fun h => ⟨key, rest, rfl, h⟩
    · rintro ⟨_, _, heq, h⟩
      obtain ⟨rfl, rfl⟩ := List.cons.inj heq
      exact h

/-- `tagged` admits a payload under the tags that name it, and under every other as `rest` says. -/
lemma tagged_answers (hl : ∀ e ∈ own :: above, e.WellFormed) {arms : List (FieldKey × Extent)}
    (hown : own.resolve = .union arms) {tags : List (FieldKey × Predicate)} (hasc : KeysAscend tags)
    (htags : ∀ t p, (t, p) ∈ tags → ∃ e, arms.lookup t = some e ∧ p.Applies [e]) (rest : Bool) :
    Answers (own :: above) (tagged tags rest) (fun path =>
      ∃ t v above, path = .union t v :: above ∧
        match tags.lookup t with
        | some p => p.Admits [v]
        | none => rest = true) := by
  have harm := (hl own (by simp)).union_arms hown
  have hover : Over [own] (.ofUnion tags rest) := by
    refine (over_ofUnion_iff hown).mpr ⟨hasc, fun kp hkp => ?_⟩
    obtain ⟨e, he, happ⟩ := htags kp.1 kp.2 hkp
    exact ⟨e, he, happ.over (by simpa using harm kp.1 e he)⟩
  have hreturns := (tagged_spec hover).forget.under above (T := Mem (.ofUnion tags rest))
    fun x xs => (mem_cons_iff hover.not_qualifies).symm
  refine hreturns.answers hl fun path hpath => ?_
  cases hpath with
  | @cons _ _ _ values hkey _ =>
    obtain ⟨t, e, v, rfl, ht, hv⟩ := hkey.exists_union hown
    rw [List.map_cons, Value.point, mem_ofUnion_some, atTag]
    have hat : Mem ((tags.lookup t).getD (ofBool rest)) [v.point] ↔
        match tags.lookup t with
        | some p => p.Admits [v]
        | none => rest = true := by
      cases hlook : tags.lookup t with
      | none => simp
      | some p =>
        obtain ⟨e', he', happ⟩ := htags t p (mem_of_lookup_eq_some hlook)
        obtain rfl := mem_unique ht he'
        exact (happ.admits_key_iff (harm t e ht) hv).symm
    rw [hat]
    constructor
    · exact fun h => ⟨t, v, values, rfl, h⟩
    · rintro ⟨_, _, _, heq, h⟩
      obtain ⟨rfl, rfl⟩ := Value.union.inj (List.cons.inj heq).1
      exact h

lemma record_returns (hown : own.resolve = .record es) (hasc : KeysAscend es)
    (hkeys : fields.map (·.1) = es.map (·.1))
    (hover : ∀ k p e, (k, p) ∈ fields → es.lookup k = some e → Over [e] p) :
    Returns [own] (fun _ => True) (record fields) (Mem (.ofRecord fields)) := by
  have hbuild := (recordShape hown hasc).build_spec ((over_fields_iff hasc hkeys).mpr hover)
  rw [← hkeys] at hbuild
  exact hbuild.forget.congr fun x hx => (mem_ofRecord_iff hkeys hown hx).symm

/-- `record` admits the keys each field of which its predicate admits. -/
lemma record_answers (hl : ∀ e ∈ own :: above, e.WellFormed) (hown : own.resolve = .record es)
    (hkeys : fields.map (·.1) = es.map (·.1))
    (hfields : ∀ k p e, (k, p) ∈ fields → es.lookup k = some e → p.Applies [e]) :
    Answers (own :: above) (record fields) (fun path =>
      ∃ values above, path = .record values :: above ∧ ∀ k p, (k, p) ∈ fields →
        ∃ v, values.lookup k = some v ∧ p.Admits [v]) := by
  obtain ⟨hasc, hwf⟩ := (hl own (by simp)).record_fields hown
  have hover : ∀ k p e, (k, p) ∈ fields → es.lookup k = some e → Over [e] p := fun k p e hp he =>
    (hfields k p e hp he).over (by simpa using hwf k e he)
  have hrecord : Over [own] (.ofRecord fields) := .ofRecord hown (by rwa [KeysAscend, hkeys]) hkeys
    hover
  have hreturns := (record_returns hown hasc hkeys hover).under above (T := Mem (.ofRecord fields))
    fun x xs => (mem_cons_iff hrecord.not_qualifies).symm
  refine hreturns.answers hl fun path hpath => ?_
  cases hpath with
  | cons hkey _ =>
    obtain ⟨values, rfl, hvalues⟩ := hkey.exists_record hown
    rw [List.map_cons, Value.point, mem_ofRecord]
    have hfield : ∀ k p, (k, p) ∈ fields → (Mem p [Value.fieldPoint values k] ↔
        ∃ v, values.lookup k = some v ∧ p.Admits [v]) := by
      intro k p hp
      obtain ⟨e, he⟩ := exists_lookup_of_keys_eq hkeys hp
      obtain ⟨v, hv, hve⟩ := hvalues k e he
      rw [Value.fieldPoint_eq hv, ← (hfields k p e hp he).admits_key_iff (hwf k e he) hve]
      simp [hv]
    constructor
    · exact fun h => ⟨values, _, rfl, fun k p hp => (hfield k p hp).mp (h k p hp)⟩
    · rintro ⟨_, _, heq, h⟩ k p hp
      obtain rfl := Value.record.inj (List.cons.inj heq).1
      exact (hfield k p hp).mpr (h k p hp)

end Constructors

/-! ## The algebra -/

/-- The union of any number of regions, none included. -/
lemma Atoms.unionAll_spec [ScalarOps] {levels : List Extent}
    (hatoms : Atoms levels) (hne : levels ≠ []) {arms : List Predicate}
    (harms : ∀ p ∈ arms, Over levels p) :
    Returns levels (fun _ => True) (unionAll arms) (fun x => ∃ p ∈ arms, Mem p x) := by
  cases arms with
  | nil => exact ⟨.ff, rfl, Over.ff_of_ne_nil hne, trivial, by simp⟩
  | cons a arms => exact hatoms.flattenOr_spec (by simp) harms

/-- **The predicate algebra denotes the set operations exactly.**  Over any levels, on predicates
that apply there, every operation returns a predicate that applies there again, and `contains_path`
answers the Boolean combination on every path of values. -/
theorem algebra_exact [ScalarOps] {levels : List Extent}
    (hne : levels ≠ []) (hl : ∀ e ∈ levels, e.WellFormed) :
    (∀ p q, p.Applies levels → q.Applies levels →
      Answers levels (intersect p q) (fun path => p.Admits path ∧ q.Admits path) ∧
      Answers levels (union p q) (fun path => p.Admits path ∨ q.Admits path) ∧
      Answers levels (minus p q) (fun path => p.Admits path ∧ q.Refuses path)) ∧
    (∀ arms : List Predicate, (∀ p ∈ arms, p.Applies levels) →
      (arms ≠ [] → Answers levels (flattenOr arms) (fun path => ∃ p ∈ arms, p.Admits path)) ∧
      Answers levels (unionAll arms) (fun path => ∃ p ∈ arms, p.Admits path)) ∧
    (∀ own above enclosing here, levels = own :: above → enclosing.Applies above →
      here.Applies [own] →
      Answers levels (some (qualified enclosing here)) (fun path =>
        ∃ key rest, path = key :: rest ∧ enclosing.Admits rest ∧ here.Admits [key])) ∧
    (∀ own above arms tags rest, levels = own :: above → own.resolve = .union arms →
      KeysAscend tags →
      (∀ t p, (t, p) ∈ tags → ∃ e, arms.lookup t = some e ∧ p.Applies [e]) →
      Answers levels (tagged tags rest) (fun path =>
        ∃ t v above, path = .union t v :: above ∧
          match tags.lookup t with
          | some p => p.Admits [v]
          | none => rest = true)) ∧
    (∀ own above es fields, levels = own :: above → own.resolve = .record es →
      fields.map (·.1) = es.map (·.1) →
      (∀ k p e, (k, p) ∈ fields → es.lookup k = some e → p.Applies [e]) →
      Answers levels (record fields) (fun path =>
        ∃ values above, path = .record values :: above ∧ ∀ k p, (k, p) ∈ fields →
          ∃ v, values.lookup k = some v ∧ p.Admits [v])) := by
  have hatoms := atoms_of_levels hne hl
  refine ⟨fun p q hp hq => ⟨?_, ?_, ?_⟩, fun arms harms => ?_, ?_, ?_, ?_⟩
  · refine (hatoms.intersect_spec (hp.over hl) (hq.over hl)).answers hl fun path hpath => ?_
    rw [hp.admits_iff hl hpath, hq.admits_iff hl hpath]
  · refine (hatoms.union_spec (hp.over hl) (hq.over hl)).answers hl fun path hpath => ?_
    rw [hp.admits_iff hl hpath, hq.admits_iff hl hpath]
  · refine (hatoms.minus_spec (hp.over hl) (hq.over hl)).answers hl fun path hpath => ?_
    rw [hp.admits_iff hl hpath, hq.refuses_iff hl hpath]
  · have hover : ∀ p ∈ arms, Over levels p := fun p hp => (harms p hp).over hl
    have hadmits : ∀ path, ValuesOf levels path →
        ((∃ p ∈ arms, Mem p (path.map Value.point)) ↔ ∃ p ∈ arms, p.Admits path) :=
      fun path hpath => exists_congr fun p => and_congr_right fun hp =>
        ((harms p hp).admits_iff hl hpath).symm
    exact ⟨fun harms_ne => (hatoms.flattenOr_spec harms_ne hover).answers hl hadmits,
      (hatoms.unionAll_spec hne hover).answers hl hadmits⟩
  · rintro own above enclosing here rfl he hh
    exact qualified_answers hl he hh
  · rintro own above arms tags rest rfl hown hasc htags
    exact tagged_answers hl hown hasc htags rest
  · rintro own above es fields rfl hown hkeys hfields
    exact record_answers hl hown hkeys hfields

/-! ## On two levels of Booleans -/

/-- The one value `b`. -/
def onlyBool (b : Bool) : Predicate := .ofIntervals .bool [⟨some ⟨false, b⟩, some ⟨false, b⟩⟩]

lemma onlyBool_wellFormed (b : Bool) : (onlyBool b).WellFormed := by
  refine .ofIntervals ⟨⟨?_, by simp⟩, by simp, fun x _ hx => ?_⟩
  · simp only [List.mem_singleton, forall_eq]
    refine ⟨by simp [Bound.normalized], by simp [Bound.normalized], ?_⟩
    rintro _ ⟨⟩ _ ⟨⟩
    exact .inr ⟨rfl, rfl, rfl⟩
  · simp only [IntervalSet.mem_cons, IntervalSet.not_mem_nil, or_false] at hx
    refine ⟨?_, ?_⟩
    · rintro _ ⟨⟩ hlt
      exact hx.1 _ rfl (hlt.mono (Bool.false_le b))
    · rintro _ ⟨⟩ hgt
      exact hx.2 _ rfl (hgt.mono (Bool.le_true b))

lemma onlyBool_applies_two (b : Bool) : (onlyBool b).Applies [.base .bool, .base .bool] :=
  ⟨onlyBool_wellFormed b, by simp [isApplicableOver, onlyBool, Extent.resolve, Extent.scalarType]⟩

lemma qualified_bools_applies (b c : Bool) :
    (ofQualified (onlyBool b) (onlyBool c)).Applies [.base .bool, .base .bool] :=
  ⟨.ofQualified (onlyBool_wellFormed b) (onlyBool_wellFormed c), by
    simp [isApplicableOver, onlyBool, Extent.resolve, Extent.scalarType]⟩

theorem algebra_exact_two_bools :
    (ofQualified (onlyBool true) (onlyBool false)).Applies [.base .bool, .base .bool] ∧
    (onlyBool true).Applies [.base .bool, .base .bool] ∧
    Answers [.base .bool, .base .bool]
      (minus (onlyBool true) (ofQualified (onlyBool true) (onlyBool false)))
      (fun path => (onlyBool true).Admits path ∧
        (ofQualified (onlyBool true) (onlyBool false)).Refuses path) := by
  have hq := qualified_bools_applies true false
  have ht := onlyBool_applies_two true
  exact ⟨hq, ht, ((algebra_exact (by simp) (by simp [Extent.WellFormed.base])).1 _ _ ht hq).2.2⟩

/-! ## Without the invariants -/

/-- The point of a Boolean key. -/
def boolPoint (c : Bool) : List KeyPoint := [.scalar .bool (.here c)]

lemma exists_boolPoint {x : List KeyPoint} (hx : InLevels [.base .bool] x) :
    ∃ c, x = boolPoint c := by
  obtain ⟨k, rfl, hk⟩ := hx.exists_singleton
  obtain ⟨y, rfl, hvalid, hmem⟩ := hk.exists_scalar rfl
  have hlow : ¬y.Lt false := hmem.1 ⟨false, false⟩ rfl
  have hhigh : ¬y.Gt true := hmem.2 ⟨false, true⟩ rfl
  cases y with
  | here c => exact ⟨c, rfl⟩
  | below c =>
    cases c with
    | false => exact absurd (le_refl false) hlow
    | true => cases hvalid
  | above c =>
    cases c with
    | false => cases hvalid
    | true => exact absurd (le_refl true) hhigh

@[simp] lemma mem_onlyBool {c : Bool} : Mem (onlyBool b) (boolPoint c) ↔ b = c := by
  rw [onlyBool, boolPoint, mem_ofIntervals]
  simp only [IntervalSet.mem_cons, IntervalSet.not_mem_nil, or_false, Interval.Mem,
    Option.mem_def, Option.some.injEq, forall_eq', Bound.Holds, Point.Lt, Point.Gt]
  cases b <;> cases c <;> decide

lemma over_onlyBool (b : Bool) : Over [.base .bool] (onlyBool b) := by
  cases onlyBool_wellFormed b with
  | ofIntervals hs => exact .ofIntervals rfl hs

lemma subsumes_bools (hp : Over [.base .bool] p) (hq : Over [.base .bool] q)
    (h : b = true ↔ ∀ c, Mem q (boolPoint c) → Mem p (boolPoint c)) : subsumes p q = some b := by
  have halg := (atoms_of_wellFormed (e := .base .bool) .base).algebra
  obtain ⟨b', hb', hiff⟩ := halg.subsumes hp hq
  have heq : b' = true ↔ b = true := by
    rw [hiff, h]
    constructor
    · intro hall c
      exact hall _ (inLevels_singleton.mpr (.scalar rfl ⟨trivial, typeRange_mem_here .bool c⟩))
    · intro hall x hx
      obtain ⟨c, rfl⟩ := exists_boolPoint hx
      exact hall c
  rw [hb']
  exact congrArg some (Bool.eq_iff_iff.mpr heq)

/-- Either value, one arm each. -/
def eitherBool : Predicate := .ofOr [onlyBool true, onlyBool false]

/-- The key `true` under the path `true`. -/
def bothTrue : Predicate := .ofQualified (onlyBool true) (onlyBool true)

lemma over_eitherBool : Over [.base .bool] eitherBool :=
  .ofOr (by simp) (by simp [over_onlyBool]) (by simp [onlyBool, isOr])

lemma subsumes_onlyBool (b c : Bool) : subsumes (onlyBool b) (onlyBool c) = some (b == c) := by
  refine subsumes_bools (over_onlyBool b) (over_onlyBool c) ?_
  cases b <;> cases c <;> simp

lemma subsumes_onlyBool_tt (b : Bool) : subsumes (onlyBool b) .tt = some false := by
  refine subsumes_bools (over_onlyBool b) .tt ?_
  cases b <;> simp

lemma subsumes_tt (p : Predicate) : subsumes .tt p = some true := by
  rw [subsumes_def]
  cases p.isFalse <;> simp [isTrue, asBool]

lemma sameRegion_eitherBool : sameRegion eitherBool .tt = some true := by
  have h : subsumes eitherBool .tt = some true := by
    refine subsumes_bools over_eitherBool .tt ?_
    simp [eitherBool, mem_ofOr]
  rw [sameRegion_def, h]
  simp [subsumes_tt]

@[simp] lemma asBool_onlyBool (b : Bool) : (onlyBool b).asBool = none := by
  simp [onlyBool, asBool, isWhole, sample, point_ne_typeRange (τ := .bool) b]

lemma subsumes_onlyBool_bothTrue : subsumes (onlyBool false) bothTrue = some false := by
  rw [subsumes_eq_allM (componentwise_of_qualified (.inr rfl)) rfl rfl
    (by simp [bothTrue, isFalse, asBool]) (by simp [isTrue])]
  have hzip : (onlyBool false).halves.zip bothTrue.halves =
    [(.tt, onlyBool true), (onlyBool false, onlyBool true)] := rfl
  simp [hzip, subsumes_tt, subsumes_onlyBool]

lemma subsumes_bothTrue_onlyBool : subsumes bothTrue (onlyBool false) = some false := by
  rw [subsumes_eq_allM (componentwise_of_qualified (.inl rfl)) rfl rfl
    (by simp [isFalse]) (by simp [bothTrue, isTrue, asBool])]
  have hzip : bothTrue.halves.zip (onlyBool false).halves =
    [(onlyBool true, .tt), (onlyBool true, onlyBool false)] := rfl
  simp [hzip, subsumes_onlyBool_tt]

lemma sameRegion_eq_false (hne : p ≠ q) (h : subsumes p q = some false) :
    sameRegion p q = some false := by
  rw [sameRegion_def, h]
  simp [hne]

lemma flattenOr_false_bothTrue :
    flattenOr [onlyBool false, bothTrue] = some (.ofOr [onlyBool false, bothTrue]) := by
  have hpath : sameRegion (onlyBool true) .tt = some false :=
    sameRegion_eq_false (by simp [onlyBool]) (subsumes_onlyBool_tt true)
  have hkey : sameRegion (onlyBool true) (onlyBool false) = some false :=
    sameRegion_eq_false (by simp [onlyBool]) (subsumes_onlyBool true false)
  have hjoin : join bothTrue (onlyBool false) = some none := by
    have hhalves : bothTrue.halves.zip (onlyBool false).halves =
      [(onlyBool true, .tt), (onlyBool true, onlyBool false)] := rfl
    rw [join_def, componentwise_of_qualified (.inl rfl)]
    simp only [bind_eq_bind, bind_some]
    rw [joinComponents_def, hhalves]
    simp [List.filterM, List.filterAuxM, hpath, hkey]
  have hinto : joinInto bothTrue 1 [onlyBool false] = some [onlyBool false, bothTrue] := by
    rw [joinInto_def]
    simp [List.findSomeM?, hjoin]
  have hkeep : withoutSubsumed [onlyBool false, bothTrue] = some [onlyBool false, bothTrue] := by
    rw [withoutSubsumed_def]
    simp [List.mapM_cons, subsumes_onlyBool_bothTrue, subsumes_bothTrue_onlyBool]
  rw [flattenOr_def]
  have hspread : spreadArms [onlyBool false, bothTrue] = [onlyBool false, bothTrue] := rfl
  simp [hspread, joinInto_nil, hinto, hkeep, ofReduced]

/-- `true` under `true`, inside two `Or`s. -/
def nested : Predicate := .ofOr [.ofOr [bothTrue]]

lemma flattenOr_nested : flattenOr [nested, .ofQualified eitherBool (onlyBool false)] =
      some (.ofQualified eitherBool (.ofOr [onlyBool false, bothTrue])) := by
  have hkey : sameRegion (onlyBool false) (.ofOr [bothTrue]) = some false := by
    refine sameRegion_eq_false (by simp [onlyBool]) ?_
    rw [subsumes_def]
    have : (ofOr [bothTrue]).isFalse = false := by simp [isFalse, asBool, bothTrue]
    simp [this, isTrue, subsumes_onlyBool_bothTrue]
  have hunion : union (onlyBool false) (.ofOr [bothTrue]) =
      some (.ofOr [onlyBool false, bothTrue]) := by
    rw [union_def]
    exact flattenOr_false_bothTrue
  have hjoin : join (.ofQualified eitherBool (onlyBool false)) (.ofOr [bothTrue]) =
      some (some (.ofQualified eitherBool (.ofOr [onlyBool false, bothTrue]))) := by
    have hhalves : (ofQualified eitherBool (onlyBool false)).halves.zip (ofOr [bothTrue]).halves =
      [(eitherBool, .tt), (onlyBool false, .ofOr [bothTrue])] := rfl
    have hfirst : (ofQualified eitherBool (onlyBool false)).halves =
      [eitherBool, onlyBool false] := rfl
    have hbuild : Componentwise.build .qualified [eitherBool, .ofOr [onlyBool false, bothTrue]] =
        some (.ofQualified eitherBool (.ofOr [onlyBool false, bothTrue])) := by
      simp [Componentwise.build, qualified, isFalse, isTrue, asBool, eitherBool, bothTrue]
    rw [join_def, componentwise_of_qualified (.inl rfl)]
    simp only [bind_eq_bind, bind_some]
    rw [joinComponents_def, hhalves]
    simp [List.filterM, List.filterAuxM, sameRegion_eitherBool, hkey, hunion, hfirst, hbuild]
  have hinto : joinInto (.ofQualified eitherBool (onlyBool false)) 1 [.ofOr [bothTrue]] =
      some [.ofQualified eitherBool (.ofOr [onlyBool false, bothTrue])] := by
    rw [joinInto_def]
    simp [List.findSomeM?, hjoin, joinInto_nil]
  have hspread : spreadArms [nested, .ofQualified eitherBool (onlyBool false)] =
      [.ofOr [bothTrue], .ofQualified eitherBool (onlyBool false)] := rfl
  rw [flattenOr_def]
  simp [hspread, joinInto_nil, hinto, withoutSubsumed_singleton, ofReduced]

/-- **The invariants are needed.**  No arms, or an `Or` with none, make the operations panic; and an
`Or` inside an `Or` that names an enclosing path can be joined as if it named none, into a predicate
that `contains_path` panics on. -/
theorem algebra_needs_invariants : flattenOr [] = none ∧
    ((ofOr []).isApplicableOver [.base .bool] = true ∧
      intersect (.ofOr []) (onlyBool true) = none) ∧
    (nested.isApplicableOver [.base .bool, .base .bool] = true ∧
      (ofQualified eitherBool (onlyBool false)).isApplicableOver [.base .bool, .base .bool] = true ∧
      ValuesOf [.base .bool, .base .bool] [.scalar .bool true, .scalar .bool true] ∧
      nested.containsPath [.scalar .bool true, .scalar .bool true] = some true ∧
      ∃ r, flattenOr [nested, .ofQualified eitherBool (onlyBool false)] = some r ∧
        r.containsPath [.scalar .bool true, .scalar .bool true] = none) := by
  have hempty : flattenOr [] = none := by
    rw [flattenOr_def]
    rfl
  have hread : ∀ b : Bool, (onlyBool b).contains (.scalar .bool true) = some b := by
    intro b
    rw [onlyBool, contains]
    cases b <;> decide
  have hpath : ∀ b : Bool, (onlyBool b).containsPath [.scalar .bool true] = some b := by
    intro b
    rw [containsPath_def]
    exact hread b
  refine ⟨hempty, ⟨by simp [isApplicableOver], ?_⟩, ?_, ?_, ?_, ?_, _, flattenOr_nested, ?_⟩
  · rw [intersect_def]
    exact hempty
  · simp [nested, bothTrue, onlyBool, isApplicableOver, Extent.resolve, Extent.scalarType]
  · simp [eitherBool, onlyBool, isApplicableOver, Extent.resolve, Extent.scalarType]
  · have hvalue : Value.OfExtent (.base .bool) (.scalar .bool true) :=
      .scalar (by rfl : Extent.scalarType (.base .bool) = some .bool) true
    exact .cons hvalue (.cons hvalue .nil)
  · have hboth : bothTrue.containsPath [.scalar .bool true, .scalar .bool true] = some true := by
      rw [bothTrue, containsPath, hpath]
      exact hread true
    rw [nested, containsPath]
    simp only [List.anyM, containsPath, hboth]
    rfl
  · have heither : eitherBool.containsPath [.scalar .bool true] = some true := by
      rw [eitherBool, containsPath]
      simp [hpath]
    rw [containsPath_def]
    simp only [heither, bind_eq_bind, bind_some, if_true]
    rw [contains_def]
    simp [hread, bothTrue, contains]

end Predicate

end Cambra
