import Cambra.Tiling.Components

/-!
# Interval and union predicates

The two canonical constructors the operations on keys end in: `Predicate::intervals`, for an
interval set an operation has left, and `Predicate::tagged`, for the payload predicates of a union.
Each returns, in canonical form, the region it was given; neither ever returns an `Or`.
-/

namespace Cambra

open List
open Option hiding map_id' map_map

namespace Predicate

/-! ## Interval sets -/

section Intervals

variable [ScalarOps]

omit [ScalarOps] in
lemma typeRange_canonical (τ : ScalarType) : IntervalSet.Canonical [typeRange τ] := by
  refine ⟨?_, by simp⟩
  simp only [mem_singleton, forall_eq]
  cases τ with
  | int | bool =>
    exact ⟨by rintro _ ⟨⟩; rfl, by rintro _ ⟨⟩; rfl, by rintro _ ⟨⟩ _ ⟨⟩; exact .inl (by decide)⟩
  | uint | string => exact ⟨by rintro _ ⟨⟩; rfl, by rintro _ ⟨⟩, by rintro _ _ _ ⟨⟩⟩

omit [ScalarOps] in
/-- A valid set that names no value is empty or the whole line. -/
lemma eq_of_sample_eq_none {V : Type*} [Domain V] {set : IntervalSet V} (hs : set.Valid)
    (h : sample set = none) : set = [] ∨ set = [⟨none, none⟩] := by
  have hunbounded : ∀ iv ∈ set, iv = ⟨none, none⟩ := by
    intro iv hiv
    have := findSome?_eq_none_iff.mp h iv hiv
    obtain ⟨_ | l, _ | r⟩ := iv <;> simp_all
  rcases set with _ | ⟨a, _ | ⟨b, rest⟩⟩
  · exact .inl rfl
  · rw [hunbounded a (by simp)]
    exact .inr rfl
  · -- an interval with no end is before nothing
    have hbefore := (pairwise_cons.mp hs.ascending).1 b.normalized (by simp)
    obtain ⟨r, hr, _⟩ := hbefore
    simp [hunbounded a (by simp), Interval.normalized] at hr

/-- **`intervals` names the set it is given**, within the type. -/
lemma intervals_spec {own : Extent} {τ : ScalarType} (hown : own.resolve.scalarType = some τ)
    {set : IntervalSet τ.Val} (hs : set.Valid) :
    Returns [own] (fun r => r.isOr = false) (intervals τ set) (Mem (.ofIntervals τ set)) := by
  have hpoint : ∀ {x}, InLevels [own] x → ∃ y, x = [.scalar τ y] ∧ τ.InRange y := by
    intro x hx
    obtain ⟨k, rfl, hk⟩ := hx.exists_singleton
    obtain ⟨y, rfl, hy⟩ := hk.exists_scalar hown
    exact ⟨y, rfl, hy⟩
  cases hsample : sample set with
  | none =>
    rcases eq_of_sample_eq_none hs hsample with rfl | rfl
    · refine ⟨.ff, rfl, .ff, rfl, fun x hx => ?_⟩
      obtain ⟨y, rfl, _⟩ := hpoint hx
      simp [mem_ofIntervals]
    · refine ⟨.tt, rfl, .tt, rfl, fun x hx => ?_⟩
      obtain ⟨y, rfl, _⟩ := hpoint hx
      simp [mem_ofIntervals, Interval.Mem]
  | some v =>
    have hrange := (typeRange_canonical τ).valid
    obtain ⟨t, ht, hcanon, hmem⟩ := canonicalRuns_spec (IntervalOps.intersection_valid hs hrange)
    have hregion : ∀ y : Point τ.Val, y.Valid → (t.Mem y ↔ set.Mem y ∧ (typeRange τ).Mem y) := by
      intro y hy
      rw [hmem y hy, IntervalOps.mem_intersection hs hrange hy]
      simp
    simp only [intervals, hsample, map_some, ht, bind_eq_bind, bind_some]
    split_ifs with hempty hwhole
    · refine ⟨.ff, rfl, .ff, rfl, fun x hx => ?_⟩
      obtain ⟨y, rfl, hy⟩ := hpoint hx
      have := hregion y hy.1
      rw [List.isEmpty_iff.mp hempty] at this
      simpa [mem_ofIntervals, hy.2] using this
    · have ht : t = [typeRange τ] := by rcases t with _ | ⟨iv, _ | _⟩ <;> simp_all [isWhole]
      refine ⟨.tt, rfl, .tt, rfl, fun x hx => ?_⟩
      obtain ⟨y, rfl, hy⟩ := hpoint hx
      have := hregion y hy.1
      simpa [ht, mem_ofIntervals, hy.2] using this
    · have hin : CanonicalIn τ t :=
        ⟨hcanon, fun hnil => hempty (by simp [hnil]), fun y hy h => ((hregion y hy).mp h).2⟩
      refine ⟨_, rfl, .ofIntervals hown hin, rfl, fun x hx => ?_⟩
      obtain ⟨y, rfl, hy⟩ := hpoint hx
      rw [mem_ofIntervals, mem_ofIntervals, hregion y hy.1]
      simp [hy.2]

end Intervals

/-! ## Unions -/

section Tags

variable {own : Extent} {arms : List (FieldKey × Extent)}

lemma fromArms_eq_some {T : Type} {tags : List (FieldKey × T)} (h : KeysAscend tags) :
    TagMap.fromArms tags = some tags := by
  have hpair : tags.Pairwise fun a b => a.1 < b.1 := pairwise_map.mp h
  have hsorted : tags.mergeSort (fun a b => a.1 ≤ b.1) = tags := by
    refine mergeSort_of_pairwise (hpair.imp fun hab => ?_)
    simpa using hab.le
  have hdistinct : ∀ w ∈ tags.zip tags.tail, w.1.1 ≠ w.2.1 := by
    clear hsorted h
    induction tags with
    | nil => simp
    | cons a tags ih =>
      cases tags with
      | nil => simp
      | cons b tags =>
        obtain ⟨ha, hrest⟩ := pairwise_cons.mp hpair
        simp only [tail_cons, zip_cons_cons, List.mem_cons, forall_eq_or_imp]
        exact ⟨(ha b (by simp)).ne, ih hrest⟩
  simp only [TagMap.fromArms, hsorted]
  rw [if_pos]
  simpa using hdistinct

variable {rest : Bool} {t : FieldKey} {tags : List (FieldKey × Predicate)}

/-- Dropping the tags that say what `rest` says changes no region. -/
lemma mem_atTag_filter (h : Over [own] (.ofUnion tags rest)) (hown : own.resolve = .union arms)
    {e : Extent} (ht : arms.lookup t = some e) {y : KeyPoint} (hy : InExtent e y) :
    Mem (atTag (tags.filter fun kp => kp.2.asBool != some rest) rest t) [y] ↔
      Mem (atTag tags rest t) [y] := by
  obtain ⟨hasc, htags⟩ := (over_ofUnion_iff hown).mp h
  rw [atTag, atTag, lookup_filter hasc.nodup]
  cases hlook : tags.lookup t with
  | none => rfl
  | some p =>
    by_cases hb : p.asBool = some rest
    · obtain ⟨e', he', hover⟩ := htags _ (mem_of_lookup_eq_some hlook)
      obtain rfl := mem_unique ht he'
      simp only [filter_some, hb, bne_self_eq_false, Bool.false_eq_true, if_false,
        getD_none, getD_some, mem_ofBool]
      cases rest with
      | true => simpa using mem_of_isTrue hover (isTrue_iff.mpr hb) (inLevels_singleton.mpr hy)
      | false => simpa using not_mem_of_isFalse hover hb [y]
    · simp [filter_some, hb]

/-- **`tagged` names the union it is given.** -/
lemma tagged_spec (h : Over [own] (.ofUnion tags rest)) :
    Returns [own] (fun r => r.isOr = false) (tagged tags rest) (Mem (.ofUnion tags rest)) := by
  obtain ⟨arms, hown⟩ : ∃ arms, own.resolve = .union arms := by
    cases h with
    | ofUnion hown => exact ⟨_, hown⟩
  obtain ⟨hasc, htags⟩ := (over_ofUnion_iff hown).mp h
  set kept := tags.filter fun kp => kp.2.asBool != some rest with hkept
  have hkasc : KeysAscend kept := hasc.filter _
  have hmem : ∀ x, InLevels [own] x →
      (Mem (.ofUnion kept rest) x ↔ Mem (.ofUnion tags rest) x) := by
    intro x hx
    obtain ⟨k, rfl, hk⟩ := hx.exists_singleton
    rcases hk.exists_tag hown with ⟨t, e, y, rfl, ht, hy⟩ | ⟨y, rfl⟩
    · rw [mem_ofUnion_some, mem_ofUnion_some, hkept]
      exact mem_atTag_filter h hown ht hy
    · rw [mem_ofUnion_none, mem_ofUnion_none]
  cases hempty : kept.isEmpty with
  | true =>
    refine ⟨ofBool rest, ?_, .ofBool, by cases rest <;> rfl, fun x hx => ?_⟩
    · cases rest <;> simp [tagged, ← hkept, hempty, ofBool]
    · rw [← hmem x hx, List.isEmpty_iff.mp hempty, mem_ofBool]
      obtain ⟨k, rfl, hk⟩ := hx.exists_singleton
      rcases hk.exists_tag hown with ⟨t, e, y, rfl, ht, hy⟩ | ⟨y, rfl⟩
      · simp [mem_ofUnion_some, atTag]
      · rw [mem_ofUnion_none]
  | false =>
    refine ⟨.ofUnion kept rest, by simp [tagged, ← hkept, hempty, fromArms_eq_some hkasc],
      (over_ofUnion_iff hown).mpr ⟨hkasc, fun kp hkp => htags kp (mem_filter.mp hkp).1⟩, rfl,
      hmem⟩

instance : Inhabited Predicate := ⟨.ff⟩

variable (rest) in
/-- **A union given tag by tag.**  The tags `key` reads off `items` take what `f` returns, every
other `rest`. -/
lemma tagged_mapM_spec {α : Type} (hown : own.resolve = .union arms) {items : List α}
    {key : α → FieldKey} (hitems : (items.map key).Pairwise (· < ·)) {f : α → Option Predicate}
    {S : List KeyPoint → Prop}
    (hf : ∀ a ∈ items, ∃ r, f a = some r ∧ ∃ e, arms.lookup (key a) = some e ∧ Over [e] r ∧
      ∀ y, InExtent e y → (Mem r [y] ↔ S [.tag (some (key a)) y]))
    (hrest : ∀ t, (∀ t' ∈ items.map key, t ≠ some t') → ∀ y, S [.tag t y] ↔ rest = true) :
    ∃ tags, items.mapM (fun a => do return (key a, ← f a)) = some tags ∧ KeysAscend tags ∧
      Returns [own] (fun r => r.isOr = false) (tagged tags rest) S := by
  obtain ⟨p, hp, hspec⟩ := exists_mapM_eq_map (key ·, ·) hf
  have hkeys : (items.map fun a => (key a, p a)).map (·.1) = items.map key := by
    rw [map_map]
    rfl
  have hasc : KeysAscend (items.map fun a => (key a, p a)) := by rwa [KeysAscend, hkeys]
  have hover : Over [own] (.ofUnion (items.map fun a => (key a, p a)) rest) := by
    refine (over_ofUnion_iff hown).mpr ⟨hasc, forall_mem_map.mpr fun a ha => ?_⟩
    obtain ⟨e, he, hover, _⟩ := hspec a ha
    exact ⟨e, he, hover⟩
  refine ⟨_, hp, hasc, (tagged_spec hover).congr fun x hx => ?_⟩
  obtain ⟨k, rfl, hk⟩ := hx.exists_singleton
  rcases hk.exists_tag hown with ⟨t, e, y, rfl, he, hy⟩ | ⟨y, rfl⟩
  · rw [mem_ofUnion_some, atTag]
    cases hlook : (items.map fun a => (key a, p a)).lookup t with
    | none =>
      rw [getD_none, mem_ofBool]
      refine (hrest (some t) (fun t' ht' hne => ?_) y).symm
      cases hne
      exact lookup_eq_none_iff_not_mem_keys.mp hlook (hkeys ▸ ht')
    | some q =>
      obtain ⟨a, ha, heq⟩ := mem_map.mp (mem_of_lookup_eq_some hlook)
      cases heq
      obtain ⟨e', he', _, hmem⟩ := hspec a ha
      obtain rfl := mem_unique he he'
      exact hmem y hy
  · rw [mem_ofUnion_none, hrest none (by simp) y]

lemma mem_namedTags {ps qs : List (FieldKey × Predicate)} :
    t ∈ namedTags ps qs ↔ t ∈ ps.map (·.1) ∨ t ∈ qs.map (·.1) := by
  rw [namedTags, mem_dedup, mem_mergeSort, mem_append]

lemma namedTags_ascend (ps qs : List (FieldKey × Predicate)) : (namedTags ps qs).Pairwise (· < ·) :=
  pairwise_lt_dedup_mergeSort _

/-- A union predicate is over the payload's extent under each tag. -/
lemma Over.atTag (h : Over [own] (.ofUnion tags rest)) (hown : own.resolve = .union arms)
    {e : Extent} (ht : arms.lookup t = some e) : Over [e] (Predicate.atTag tags rest t) := by
  rw [Predicate.atTag]
  cases hlook : tags.lookup t with
  | none => exact .ofBool
  | some p =>
    obtain ⟨e', he', hover⟩ := ((over_ofUnion_iff hown).mp h).2 _ (mem_of_lookup_eq_some hlook)
    exact mem_unique ht he' ▸ hover

lemma Over.exists_arm (h : Over [own] (.ofUnion tags rest)) (hown : own.resolve = .union arms)
    (ht : t ∈ tags.map (·.1)) : ∃ e, arms.lookup t = some e := by
  obtain ⟨kp, hkp, rfl⟩ := mem_map.mp ht
  obtain ⟨e, he, _⟩ := ((over_ofUnion_iff hown).mp h).2 kp hkp
  exact ⟨e, he⟩

lemma atTag_eq_ofBool (h : t ∉ tags.map (·.1)) : atTag tags rest t = ofBool rest := by
  simp [atTag, lookup_eq_none_iff_not_mem_keys.mpr h]

/-- **Two unions combined tag by tag** (`zip_tags`), where `op` combines predicates as `β` combines
their regions. -/
lemma zipTags_spec (β : Prop → Prop → Prop) (hown : own.resolve = .union arms)
    {op : Predicate → Predicate → Option Predicate}
    (hop : ∀ {t e p q}, arms.lookup t = some e → Over [e] p → Over [e] q →
      Returns [e] (fun _ => True) (op p q) (fun x => β (Mem p x) (Mem q x)))
    {ps qs : List (FieldKey × Predicate)} {pr qr : Bool} {r : Predicate}
    (hp : Over [own] (.ofUnion ps pr)) (hq : Over [own] (.ofUnion qs qr))
    (hconst : op (ofBool pr) (ofBool qr) = some r) (hr : r.asBool = some rest)
    (hrest : rest = true ↔ β (pr = true) (qr = true)) :
    Returns [own] (fun r => r.isOr = false) (do
        let tags ← (namedTags ps qs).mapM fun tag => do
          return (tag, ← op (atTag ps pr tag) (atTag qs qr tag))
        let rest ← (← op (ofBool pr) (ofBool qr)).asBool
        tagged (← TagMap.fromArms tags) rest)
      (fun x => β (Mem (.ofUnion ps pr) x) (Mem (.ofUnion qs qr) x)) := by
  have hnamed : ∀ t ∈ namedTags ps qs, ∃ r, op (atTag ps pr t) (atTag qs qr t) = some r ∧
      ∃ e, arms.lookup t = some e ∧ Over [e] r ∧ ∀ y, InExtent e y → (Mem r [y] ↔
        β (Mem (.ofUnion ps pr) [.tag (some t) y]) (Mem (.ofUnion qs qr) [.tag (some t) y])) := by
    intro t ht
    obtain ⟨e, he⟩ : ∃ e, arms.lookup t = some e :=
      (mem_namedTags.mp ht).elim (hp.exists_arm hown) (hq.exists_arm hown)
    obtain ⟨r, hr, hover, _, hmem⟩ := hop he (hp.atTag hown he) (hq.atTag hown he)
    refine ⟨r, hr, e, he, hover, fun y hy => ?_⟩
    rw [hmem _ (inLevels_singleton.mpr hy), mem_ofUnion_some, mem_ofUnion_some]
  obtain ⟨tags, htags, hasc, r', hr', hspec⟩ := tagged_mapM_spec rest hown
    (S := fun x => β (Mem (.ofUnion ps pr) x) (Mem (.ofUnion qs qr) x))
    (by simpa using namedTags_ascend ps qs) hnamed fun t ht y => by
      rw [map_id'] at ht
      cases t with
      | none => rw [mem_ofUnion_none, mem_ofUnion_none, hrest]
      | some t =>
        have hnot : t ∉ namedTags ps qs := fun hmem => ht t hmem rfl
        rw [mem_namedTags, not_or] at hnot
        simp [mem_ofUnion_some, atTag_eq_ofBool hnot.1, atTag_eq_ofBool hnot.2, hrest]
  refine ⟨r', ?_, hspec⟩
  rw [htags]
  simp only [hconst, hr, fromArms_eq_some hasc, bind_eq_bind, bind_some]
  exact hr'

end Tags

end Predicate

end Cambra
