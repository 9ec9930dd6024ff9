import Cambra.Tiling.Prefix

/-!
# Positions and the prefix a release covers

A position is a value of a domain, and the positions of one domain are ordered (`Position`, the
`Ord` of `value.rs`): two values that spell one extent out always compare
(`Value.Spells.exists_partialCmp`), so the comparison that the code falls back on a panic for is a
linear order.

`max_released_position` reads off a predicate the position a prefix-style release reaches, and
`advance_from` classifies a release by it: nothing, a prefix through a position, or everything
(`ReleasedExtent`).  It reads the upper end of each interval, whether or not the end is in the
interval and whatever is missing below it; of a record key it reads nothing.
-/

namespace Cambra

open List Option

namespace Value

/-! ## The order of the values of one extent -/

mutual

lemma partialCmp_swap : ∀ w v : Value, partialCmp v w = (partialCmp w v).map Ordering.swap
  | .scalar τ w, .scalar τ' v => by
    by_cases h : τ = τ'
    · subst h
      simp only [partialCmp_scalar, map_some, Option.some.injEq]
      exact Std.OrientedOrd.eq_swap
    · have h' : ¬τ' = τ := fun heq => h heq.symm
      simp [partialCmp, h, h']
  | .unit, .unit => by simp [partialCmp]
  | .record ws, .record vs => by
    have hfields := partialCmpFields_swap ws vs
    by_cases h : ws.map (·.1) = vs.map (·.1)
    · simpa [partialCmp, h] using hfields
    · have h' : ¬vs.map (·.1) = ws.map (·.1) := fun heq => h heq.symm
      simp [partialCmp, h, h']
  | .union tag w, .union tag' v => by
    have hinner := partialCmp_swap w v
    rw [partialCmp, partialCmp, Std.OrientedOrd.eq_swap (a := tag') (b := tag)]
    rcases compare tag tag' with _ | _ | _
    · rfl
    · exact hinner
    · rfl
  | .scalar _ _, .unit | .scalar _ _, .record _ | .scalar _ _, .union _ _ | .unit, .scalar _ _
  | .unit, .record _ | .unit, .union _ _ | .record _, .scalar _ _ | .record _, .unit
  | .record _, .union _ _ | .union _ _, .scalar _ _ | .union _ _, .unit
  | .union _ _, .record _ => by
    simp [partialCmp]

lemma partialCmpFields_swap : ∀ ws vs : List (String × Value),
    partialCmpFields vs ws = (partialCmpFields ws vs).map Ordering.swap
  | [], [] | [], _ :: _ | _ :: _, [] => by simp [partialCmpFields]
  | (name, w) :: ws, (name', v) :: vs => by
    have hfirst := partialCmp_swap w v
    have hrest := partialCmpFields_swap ws vs
    rw [partialCmpFields, partialCmpFields, Std.OrientedOrd.eq_swap (a := name') (b := name),
      hfirst]
    rcases compare name name' with _ | _ | _
    · rfl
    · rcases partialCmp w v with _ | _ | _ | _
      · rfl
      · rfl
      · exact hrest
      · rfl
    · rfl

end

mutual

lemma partialCmp_lt_trans : ∀ {u v w : Value}, partialCmp u v = some .lt →
    partialCmp v w = some .lt → partialCmp u w = some .lt
  | .scalar τ u, .scalar τ' v, .scalar τ'' w => by
    intro huv hvw
    by_cases h : τ = τ'
    · by_cases h' : τ' = τ''
      · subst h h'
        rw [partialCmp_scalar, Option.some.injEq, compare_lt_iff_lt] at huv hvw ⊢
        exact huv.trans hvw
      · simp [partialCmp, h'] at hvw
    · simp [partialCmp, h] at huv
  | .record us, .record vs, .record ws => by
    intro huv hvw
    rw [partialCmp] at huv hvw ⊢
    by_cases h : us.map (·.1) = vs.map (·.1)
    · by_cases h' : vs.map (·.1) = ws.map (·.1)
      · rw [if_pos h] at huv
        rw [if_pos h'] at hvw
        rw [if_pos (h.trans h')]
        exact partialCmpFields_lt_trans huv hvw
      · simp [h'] at hvw
    · simp [h] at huv
  | .union s u, .union t v, .union r w => by
    intro huv hvw
    rw [partialCmp] at huv hvw ⊢
    rcases hst : compare s t with _ | _ | _ <;> rcases htr : compare t r with _ | _ | _ <;>
      simp [hst, htr] at huv hvw
    · simp [compare_lt_iff_lt.mpr ((compare_lt_iff_lt.mp hst).trans (compare_lt_iff_lt.mp htr))]
    · simp [← compare_eq_iff_eq.mp htr, hst]
    · simp [compare_eq_iff_eq.mp hst, htr]
    · simpa [compare_eq_iff_eq.mp hst, htr] using partialCmp_lt_trans huv hvw
  | .unit, .unit, _ => by simp [partialCmp]
  | .scalar _ _, .scalar _ _, .unit | .scalar _ _, .scalar _ _, .record _
  | .scalar _ _, .scalar _ _, .union _ _ => by simp [partialCmp]
  | .record _, .record _, .unit | .record _, .record _, .scalar _ _
  | .record _, .record _, .union _ _ => by simp [partialCmp]
  | .union _ _, .union _ _, .unit | .union _ _, .union _ _, .scalar _ _
  | .union _ _, .union _ _, .record _ => by simp [partialCmp]
  | .scalar _ _, .unit, _ | .scalar _ _, .record _, _ | .scalar _ _, .union _ _, _ => by
    simp [partialCmp]
  | .unit, .scalar _ _, _ | .unit, .record _, _ | .unit, .union _ _, _ => by simp [partialCmp]
  | .record _, .scalar _ _, _ | .record _, .unit, _ | .record _, .union _ _, _ => by
    simp [partialCmp]
  | .union _ _, .scalar _ _, _ | .union _ _, .unit, _ | .union _ _, .record _, _ => by
    simp [partialCmp]

lemma partialCmpFields_lt_trans : ∀ {us vs ws : List (String × Value)},
    partialCmpFields us vs = some .lt → partialCmpFields vs ws = some .lt →
      partialCmpFields us ws = some .lt
  | [], [], _ | _ :: _, [], _ | _, _ :: _, [] | [], _ :: _, _ :: _ => by simp [partialCmpFields]
  | (k, u) :: us, (l, v) :: vs, (m, w) :: ws => by
    intro huv hvw
    rw [partialCmpFields] at huv hvw ⊢
    rcases hkl : compare k l with _ | _ | _ <;> rcases hlm : compare l m with _ | _ | _ <;>
      simp [hkl, hlm] at huv hvw
    · simp [compare_lt_iff_lt.mpr ((compare_lt_iff_lt.mp hkl).trans (compare_lt_iff_lt.mp hlm))]
    · simp [← compare_eq_iff_eq.mp hlm, hkl]
    · simp [compare_eq_iff_eq.mp hkl, hlm]
    obtain rfl := compare_eq_iff_eq.mp hkl
    obtain rfl := compare_eq_iff_eq.mp hlm
    rw [hkl]
    rcases h₁ : partialCmp u v with _ | _ | _ | _ <;>
      rcases h₂ : partialCmp v w with _ | _ | _ | _ <;>
      simp [h₁, h₂] at huv hvw
    · simp [partialCmp_lt_trans h₁ h₂]
    · simp [← partialCmp_eq_iff.mp h₂, h₁]
    · simp [partialCmp_eq_iff.mp h₁, h₂]
    · simpa [partialCmp_eq_iff.mp h₁, h₂] using partialCmpFields_lt_trans huv hvw

end

/-- Lists of entries compare where their values do, name by name. -/
lemma exists_partialCmpFields : ∀ {ws vs : List (String × Value)},
    (∀ k w v, (k, w) ∈ ws → (k, v) ∈ vs → ∃ o, partialCmp w v = some o) →
      ∃ o, partialCmpFields ws vs = some o
  | [], [], _ | [], _ :: _, _ | _ :: _, [], _ => ⟨_, by rw [partialCmpFields]⟩
  | (k, w) :: ws, (l, v) :: vs, h => by
    rw [partialCmpFields]
    rcases hkl : compare k l with _ | _ | _
    · exact ⟨_, rfl⟩
    · obtain rfl := compare_eq_iff_eq.mp hkl
      obtain ⟨o, ho⟩ := h k w v (.head _) (.head _)
      rw [ho]
      rcases o with _ | _ | _
      · exact ⟨_, rfl⟩
      · exact exists_partialCmpFields fun k w v hw hv => h k w v (.tail _ hw) (.tail _ hv)
      · exact ⟨_, rfl⟩
    · exact ⟨_, rfl⟩

/-- **Two values of one extent compare.** -/
lemma Spells.exists_partialCmp {e : Extent} (he : e.WellFormed) {v w : Value} (hv : v.Spells e)
    (hw : w.Spells e) : ∃ o, partialCmp v w = some o := by
  induction hv generalizing w with
  | scalar h v =>
    cases hw with
    | scalar h' w =>
      obtain rfl := mem_unique h h'
      exact ⟨_, partialCmp_scalar _ _⟩
    | _ => cases h
  | unit =>
    cases hw with
    | scalar h _ => cases h
    | unit => exact ⟨_, by rw [partialCmp]⟩
  | record hkeys _ ih =>
    cases hw with
    | scalar h _ => cases h
    | record hkeys' h' =>
      cases he with
      | record hasc hes =>
        rw [partialCmp, if_pos (hkeys.trans hkeys'.symm)]
        refine exists_partialCmpFields fun k w v hw hv => ?_
        have hlook : ∀ {fields : List (String × Value)} {es : List (String × Extent)},
            fields.map (·.1) = es.map (·.1) → KeysAscend es → ∀ {v}, (k, v) ∈ fields →
            fields.lookup k = some v := by
          intro fields es hfs hes v hv
          refine (lookup_eq_some_iff_mem ?_).mpr hv
          rw [hfs]
          exact hes.nodup
        obtain ⟨e, hek⟩ := exists_lookup_of_keys_eq hkeys hw
        exact ih k e w hek (hlook hkeys hasc hw) (hes k e (mem_of_lookup_eq_some hek))
          (h' k e v hek (hlook hkeys' hasc hv))
  | union htag _ ih =>
    cases hw with
    | scalar h _ => cases h
    | @union _ tag' _ w htag' h' =>
      cases he with
      | union hasc hes =>
        rw [partialCmp]
        rcases hcmp : compare _ tag' with _ | _ | _
        · exact ⟨_, rfl⟩
        · obtain rfl := compare_eq_iff_eq.mp hcmp
          obtain rfl := mem_unique htag htag'
          exact ih (hes _ _ (mem_of_lookup_eq_some htag)) h'
        · exact ⟨_, rfl⟩
  | dataSourceDomain _ ih =>
    cases he with
    | dataSourceDomain he =>
      cases hw with
      | scalar h _ => cases h
      | dataSourceDomain hw => exact ih he hw
  | restricted _ ih =>
    cases he with
    | restricted he =>
      cases hw with
      | scalar h _ => cases h
      | restricted hw => exact ih he hw

/-- **The values of one extent are totally ordered**: the comparison that `value.rs` would panic
without answers for any two, both ways round alike, with equality for equal values alone, and is
transitive. -/
theorem Spells.totally_ordered {e : Extent} (he : e.WellFormed) {u v : Value} (hu : u.Spells e)
    (hv : v.Spells e) : ∃ o, partialCmp u v = some o ∧ partialCmp v u = some o.swap ∧
      (o = .eq ↔ u = v) ∧
      ∀ w, o = .lt → partialCmp v w = some .lt → partialCmp u w = some .lt := by
  obtain ⟨o, ho⟩ := hu.exists_partialCmp he hv
  refine ⟨o, ho, by rw [partialCmp_swap u v, ho]; rfl, ?_, fun w hlt hvw => ?_⟩
  · rw [← partialCmp_eq_iff, ho, Option.some.injEq]
  · exact partialCmp_lt_trans (hlt ▸ ho) hvw

theorem Spells.totally_ordered_uints : ∃ o,
    partialCmp (.scalar .uint (1 : U64)) (.scalar .uint (2 : U64)) = some o ∧
    partialCmp (.scalar .uint (2 : U64)) (.scalar .uint (1 : U64)) = some o.swap ∧
    (o = .eq ↔ Value.scalar .uint (1 : U64) = .scalar .uint (2 : U64)) ∧
    partialCmp (.scalar .uint (1 : U64)) (.scalar .uint (3 : U64)) = some .lt := by
  obtain ⟨o, h, hswap, heq, htrans⟩ := totally_ordered (e := .base .uint) .base
    (.scalar rfl (1 : U64)) (.scalar rfl (2 : U64))
  have hlt : o = .lt := (Option.some.inj ((partialCmp_scalar _ _).symm.trans h)).symm
  exact ⟨o, h, hswap, heq, htrans _ hlt (partialCmp_scalar _ _)⟩

end Value

/-- A position of the domain `e`: a value that spells it out. -/
def Position (e : {e : Extent // e.WellFormed}) : Type := {v : Value // v.Spells e.1}

namespace Position

variable {e : {e : Extent // e.WellFormed}}

/-- How two positions of one domain compare. -/
def cmp (a b : Position e) : Ordering := (Value.partialCmp a.1 b.1).getD .eq

lemma partialCmp_eq (a b : Position e) : Value.partialCmp a.1 b.1 = some (cmp a b) := by
  obtain ⟨o, ho⟩ := a.2.exists_partialCmp e.2 b.2
  rw [cmp, ho]
  rfl

lemma cmp_eq_iff {a b : Position e} : cmp a b = .eq ↔ a = b := by
  rw [← Option.some.injEq, ← partialCmp_eq, Value.partialCmp_eq_iff]
  exact Subtype.ext_iff.symm

lemma cmp_swap (a b : Position e) : cmp b a = (cmp a b).swap := by
  have h := Value.partialCmp_swap a.1 b.1
  rw [partialCmp_eq, partialCmp_eq] at h
  exact Option.some.inj h

lemma cmp_lt_trans {a b c : Position e} (hab : cmp a b = .lt) (hbc : cmp b c = .lt) :
    cmp a c = .lt := by
  have h := Value.partialCmp_lt_trans ((partialCmp_eq a b).trans (congrArg some hab))
    ((partialCmp_eq b c).trans (congrArg some hbc))
  rw [partialCmp_eq] at h
  exact Option.some.inj h

/-- Positions of one domain in the order of `value.rs`. -/
instance : LinearOrder (Position e) where
  le a b := cmp a b ≠ .gt
  lt a b := cmp a b = .lt
  le_refl a := by simp [cmp_eq_iff.mpr rfl]
  le_trans a b c hab hbc := by
    rcases h₁ : cmp a b with _ | _ | _
    · rcases h₂ : cmp b c with _ | _ | _
      · simp [cmp_lt_trans h₁ h₂]
      · rw [← cmp_eq_iff.mp h₂, h₁]
        simp
      · exact absurd h₂ hbc
    · rwa [cmp_eq_iff.mp h₁]
    · exact absurd h₁ hab
  lt_iff_le_not_ge a b := by
    rw [cmp_swap a b]
    rcases cmp a b with _ | _ | _ <;> simp
  le_antisymm a b hab hba := by
    rw [cmp_swap a b] at hba
    refine cmp_eq_iff.mp ?_
    rcases h : cmp a b with _ | _ | _ <;> simp_all
  le_total a b := by
    rw [cmp_swap a b]
    rcases cmp a b with _ | _ | _ <;> simp
  toDecidableLE a b := inferInstanceAs (Decidable (_ ≠ _))
  toDecidableEq a b := decidable_of_iff _ cmp_eq_iff
  toDecidableLT a b := inferInstanceAs (Decidable (_ = _))

end Position

/-! ## The position a release reaches -/

namespace Predicate

/-- The later of two positions; values that are not of one domain do not compare. -/
def later (a b : Value) : Option Value := (Value.partialCmp a b).map fun
    | .gt => a
    | _ => b

/-- The latest of some positions. -/
def latest : List Value → Option (Option Value)
  | [] => some none
  | v :: vs => (vs.foldlM later v).map some

/-- The largest position a predicate covers, read off its spelling. -/
def maxReleasedPosition : Predicate → Option (Option Value)
  | .ofIntervals τ s => latest (s.filterMap fun iv => iv.right.map fun b => .scalar τ b.value)
  | .ofOr arms => do
    latest ((← (arms.map fun p => p.maxReleasedPosition).mapM id).filterMap id)
  | .ofUnion tags false =>
    match (tags.map fun kp => (kp, kp.2.maxReleasedPosition)).getLast? with
    | none => some none
    | some ((tag, within), reached) =>
      -- a tag named whole bounds nothing
      if within.isTrue then some none else reached.map fun inner => inner.map (.union tag)
  | .ofUnion _ true | .ofQualified _ _ | .ofRecord _ | .tt | .ff => some none
termination_by p => sizeOf p
decreasing_by
  · exact Predicate.sizeOf_arm_lt ‹p ∈ _›
  · exact Predicate.sizeOf_tag_lt ‹kp ∈ _›

alias maxReleasedPosition_def := maxReleasedPosition.eq_def

lemma latest_spec {e : Extent} (he : e.WellFormed) {vs : List Value}
    (h : ∀ v ∈ vs, v.Spells e) : ∃ r, latest vs = some r ∧ ∀ v ∈ r, v.Spells e := by
  cases vs with
  | nil => exact ⟨none, rfl, by simp⟩
  | cons v vs =>
    obtain ⟨hv, hvs⟩ := forall_mem_cons.mp h
    suffices hfold : ∃ r, vs.foldlM later v = some r ∧ r.Spells e by
      obtain ⟨r, hr, hre⟩ := hfold
      exact ⟨some r, by rw [latest, hr]; rfl, by simpa using hre⟩
    clear h
    induction vs generalizing v with
    | nil => exact ⟨v, rfl, hv⟩
    | cons w vs ih =>
      obtain ⟨hw, hvs⟩ := forall_mem_cons.mp hvs
      obtain ⟨o, ho⟩ := hv.exists_partialCmp he hw
      have hlater : ∃ u, later v w = some u ∧ u.Spells e := by
        rw [later, ho]
        rcases o with _ | _ | _
        · exact ⟨w, rfl, hw⟩
        · exact ⟨w, rfl, hw⟩
        · exact ⟨v, rfl, hv⟩
      obtain ⟨u, hu, hue⟩ := hlater
      obtain ⟨r, hr, hre⟩ := ih u hue hvs
      exact ⟨r, by rw [foldlM_cons, hu]; exact hr, hre⟩

/-- **The position a release reaches is a position of its domain.** -/
theorem maxReleasedPosition_spec {e : Extent} (he : e.WellFormed) {p : Predicate}
    (hp : Over [e] p) : ∃ r, maxReleasedPosition p = some r ∧ ∀ v ∈ r, v.Spells e := by
  generalize hlevels : [e] = levels at hp
  induction hp generalizing e with
  | tt | ff | ofRecord | ofQualified =>
    exact ⟨none, by rw [maxReleasedPosition], by simp⟩
  | @ofIntervals own above τ s hown hs =>
    obtain ⟨rfl, rfl⟩ := List.cons.inj hlevels
    rw [maxReleasedPosition]
    refine latest_spec he fun v hv => ?_
    obtain ⟨iv, _, hiv⟩ := mem_filterMap.mp hv
    obtain ⟨b, _, rfl⟩ := map_eq_some_iff.mp hiv
    exact spells_resolve_iff.mp (.scalar hown _)
  | @ofOr levels arms hne h hnest ih =>
    subst hlevels
    obtain ⟨rs, hrs, hall⟩ : ∃ rs, (arms.map fun p => p.maxReleasedPosition).mapM id = some rs ∧
        List.Forall₂ (fun (a : Option (Option Value)) r => ∀ v ∈ r, v.Spells e)
          (arms.map fun p => p.maxReleasedPosition) rs := by
      refine mapM_eq_some_of_forall fun a ha => ?_
      obtain ⟨p, hpa, rfl⟩ := mem_map.mp ha
      exact ih p hpa he rfl
    rw [maxReleasedPosition, hrs]
    refine latest_spec he fun v hv => ?_
    obtain ⟨r, hr, hrv⟩ := mem_filterMap.mp hv
    obtain ⟨_, _, hspell⟩ := exists_of_forall₂_mem_right hall hr
    exact hspell v hrv
  | @ofUnion own above arms tags rest hown hkeys hsome h ih =>
    obtain ⟨rfl, rfl⟩ := List.cons.inj hlevels
    cases rest with
    | true => exact ⟨none, by rw [maxReleasedPosition], by simp⟩
    | false =>
      rw [maxReleasedPosition, getLast?_map]
      rcases hlast : tags.getLast? with _ | ⟨tag, within⟩
      · exact ⟨none, rfl, by simp⟩
      have hmem := mem_of_getLast? hlast
      obtain ⟨e', he'⟩ := isSome_iff_exists.mp (hsome tag within hmem)
      have hwell : e'.WellFormed := by
        have hres := he.resolve
        rw [hown] at hres
        cases hres with
        | union _ hes => exact hes _ _ (mem_of_lookup_eq_some he')
      obtain ⟨r, hr, hre⟩ := ih tag within e' hmem he' hwell rfl
      simp only [map_some, hr]
      by_cases htrue : within.isTrue = true
      · exact ⟨none, by rw [if_pos htrue], by simp⟩
      · refine ⟨r.map (.union tag), by rw [if_neg htrue], fun v hv => ?_⟩
        obtain ⟨inner, hinner, rfl⟩ := map_eq_some_iff.mp hv
        have hspell : (Value.union tag inner).Spells e.resolve := by
          rw [hown]
          exact .union he' (hre inner hinner)
        exact spells_resolve_iff.mp hspell

-- The upper end of the one interval, though nothing below it is covered.
example : maxReleasedPosition (.ofIntervals .uint [⟨some ⟨false, (1 : U64)⟩, some ⟨false, 1⟩⟩]) =
    some (some (.scalar .uint 1)) := by simp [maxReleasedPosition, latest]

end Predicate

/-! ## What a release covers -/

/-- The prefix a release covers: nothing, the positions through one, or the whole domain. -/
inductive ReleasedExtent (P : Type*) where
  | nothing
  | through (w : P)
  | all
deriving DecidableEq, Repr

/-- A release of positions as a prefix reader takes it: which positions the region names, and the
prefix it is classified as. -/
structure PositionRelease (P : Type*) where
  contains : P → Bool
  extent : ReleasedExtent P

/-- A predicate as a release of the positions of `e` (`advance_from`). -/
def Predicate.toRelease {e : {e : Extent // e.WellFormed}} (p : Predicate) (hp : Over [e.1] p) :
    PositionRelease (Position e) where
  contains v := (p.contains v.1).getD false
  extent :=
    if p.asBool = some true then .all
    else match h : p.maxReleasedPosition with
      | some (some w) => .through ⟨w, by
          obtain ⟨r, hr, hre⟩ := maxReleasedPosition_spec e.2 hp
          exact hre w (mem_unique hr h)⟩
      | _ => .nothing

/-- What a reader remembers of the releases so far (`PrefixReleaseCursor`). -/
abbrev ReleaseCursor (P : Type*) := ReleasedExtent P

namespace ReleasedExtent

variable {P : Type*} [LinearOrder P]

/-- The cursor after one more release; it never retreats. -/
def advance : ReleaseCursor P → ReleasedExtent P → ReleaseCursor P
  | .all, _ | _, .all => .all
  | cursor, .nothing => cursor
  | .nothing, .through w => .through w
  | .through r, .through w => .through (max r w)

/-- Whether a position is at or below the cursor. -/
def isReleased (cursor : ReleaseCursor P) (pos : P) : Bool :=
  match cursor with
  | .all => true
  | .through r => pos ≤ r
  | .nothing => false

/-- **A cursor covers what the releases cover**, and nothing else. -/
@[simp] lemma isReleased_advance (cursor : ReleaseCursor P) (extent : ReleasedExtent P) (pos : P) :
    (cursor.advance extent).isReleased pos = (cursor.isReleased pos || extent.isReleased pos) := by
  cases cursor <;> cases extent <;> simp [advance, isReleased]

@[simp] lemma isReleased_nothing (pos : P) :
    (.nothing : ReleasedExtent P).isReleased pos = false := rfl

end ReleasedExtent

end Cambra
