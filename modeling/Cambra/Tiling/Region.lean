import Cambra.Lib.Assoc
import Cambra.Lib.OptionSpec
import Cambra.Tiling.Predicate

/-!
# What a predicate admits

The region a predicate names, as a set of paths of points (`Predicate.Mem`), and when a predicate
makes sense over the levels of a path (`Predicate.Over`).  `Over` is the source's
`is_applicable_over` together with the invariants the type keeps: interval sets are canonical and
within their type, maps list their keys once and in order, an `Or` has arms, and an `Or` directly
inside an `Or` names no enclosing path.

## Main results

* `isFalse_iff`: emptiness is answered exactly; `mem_of_isTrue`: universality is answered soundly.
* `containsPath_decides`: reading a path of values answers membership, and never panics.
* `over_iff`: `Over` is `isApplicableOver` of a well-formed predicate.
-/

namespace Cambra

open List
open Option hiding all_eq_true all_map any_eq_false any_eq_true any_map

/-! ## Interval sets of a scalar type -/

/-- An interval set in the form `Predicate::intervals` leaves it: canonical, not empty, and within
the range of its type. -/
structure CanonicalIn (τ : ScalarType) (s : IntervalSet τ.Val) : Prop where
  canonical : s.Canonical
  nonempty : s ≠ []
  within : ∀ x : Point τ.Val, x.Valid → s.Mem x → (typeRange τ).Mem x

lemma typeRange_left (τ : ScalarType) :
    ∃ m : τ.Val, (⟨false, m⟩ : Bound τ.Val) ∈ (typeRange τ).left ∧
      Domain.tryAdjacent .left m = none := by
  cases τ with
  | int | uint | bool | string => exact ⟨_, rfl, rfl⟩

/-- An interval that does not start reaches below any value with no neighbour below. -/
lemma Interval.Proper.exists_mem_lt {V : Type*} [Domain V] {iv : Interval V} (h : iv.Proper)
    (hl : iv.left = none) {m : V} (hm : Domain.tryAdjacent .left m = none) :
    ∃ x : Point V, x.Valid ∧ iv.Mem x ∧ x.Lt m := by
  obtain ⟨left, right⟩ := iv
  obtain rfl : left = none := hl
  cases right with
  | none => exact ⟨.below m, hm, by simp [Interval.Mem], le_refl m⟩
  | some r =>
    by_cases hle : m ≤ r.value
    · refine ⟨.below m, hm, ?_, le_refl m⟩
      simp [Interval.Mem, Bound.Holds, Point.Gt, Point.Lt, hle]
    · have hlt := not_le.mp hle
      rcases ho : r.isOpen with _ | _
      · exact ⟨.here r.value, trivial, by simp [Interval.Mem, Bound.Holds, ho, Point.Gt], hlt⟩
      · have hr := Bound.adjacent_eq_none_of_normalized (h.right r rfl) ho
        exact ⟨.below r.value, hr, by simp [Interval.Mem, Bound.Holds, ho, Point.Lt], hlt.le⟩

variable {τ : ScalarType} {e : Extent} {x : KeyPoint} {above path : List KeyPoint}
  {arms : List Predicate} {b rest : Bool} {enclosing here p : Predicate}
  {m : List (String × Predicate)} {tags : List (FieldKey × Predicate)} {es : List (String × Extent)}
  {levels : List Extent} {v : Value}

lemma CanonicalIn.left_isSome {s : IntervalSet τ.Val} (h : CanonicalIn τ s) :
    ∀ iv ∈ s, iv.left.isSome := by
  intro iv hiv
  rw [isSome_iff_ne_none]
  intro hnone
  obtain ⟨m, hleft, hm⟩ := typeRange_left τ
  obtain ⟨x, hx, hmem, hlt⟩ := (h.canonical.proper iv hiv).exists_mem_lt hnone hm
  have := (h.within x hx ⟨iv, hiv, hmem⟩).1 _ hleft
  simp [Bound.Holds, hlt] at this

/-- A set in this form has a point of its type. -/
lemma CanonicalIn.exists_mem {s : IntervalSet τ.Val} (h : CanonicalIn τ s) :
    ∃ x, τ.InRange x ∧ s.Mem x := by
  obtain ⟨iv, hiv⟩ := exists_mem_of_ne_nil s h.nonempty
  obtain ⟨l, hl⟩ := isSome_iff_exists.mp (h.left_isSome iv hiv)
  have hp := h.canonical.proper iv hiv
  have hvalid := Bound.leastPoint_valid (hp.left l hl)
  have hmem : s.Mem l.leastPoint := ⟨iv, hiv, hp.mem_leastPoint hl⟩
  exact ⟨_, ⟨hvalid, h.within _ hvalid hmem⟩, hmem⟩

/-! ## Regions -/

/-- The points a path through the levels can run through. -/
def InLevels (levels : List Extent) (path : List KeyPoint) : Prop :=
  List.Forall₂ InExtent levels path

lemma exists_inLevels : ∀ levels : List Extent, ∃ path, InLevels levels path
  | [] => ⟨[], .nil⟩
  | e :: levels => by
    obtain ⟨x, hx⟩ := e.exists_point
    obtain ⟨path, hpath⟩ := exists_inLevels levels
    exact ⟨x :: path, .cons hx hpath⟩

lemma inExtent_resolve_iff : InExtent e.resolve x ↔ InExtent e x := by
  cases e with
  | dataSourceDomain e =>
    exact ⟨.dataSourceDomain, fun | .scalar h _ => nomatch h | .dataSourceDomain h => h⟩
  | restricted e => exact ⟨.restricted, fun | .scalar h _ => nomatch h | .restricted h => h⟩
  | _ => rfl

lemma InExtent.of_resolve {e' : Extent} (h : e.resolve = e') (hx : InExtent e' x) : InExtent e x :=
  inExtent_resolve_iff.mp (h ▸ hx)

namespace Predicate

/-- The path of points is in the region the predicate names. -/
inductive Mem : Predicate → List KeyPoint → Prop
  | tt {path : List KeyPoint} : Mem .tt path
  | ofIntervals {τ : ScalarType} {s : IntervalSet τ.Val} {x : Point τ.Val} {above : List KeyPoint}
      (h : s.Mem x) : Mem (.ofIntervals τ s) (.scalar τ x :: above)
  | ofRecord {m : List (String × Predicate)} {f : String → KeyPoint} {above : List KeyPoint}
      (h : ∀ k p, (k, p) ∈ m → Mem p [f k]) : Mem (.ofRecord m) (.record f :: above)
  | ofOr {arms : List Predicate} {p : Predicate} {path : List KeyPoint} (hp : p ∈ arms)
      (h : Mem p path) : Mem (.ofOr arms) path
  | named {tags : List (FieldKey × Predicate)} {rest : Bool} {t : FieldKey} {x : KeyPoint}
      {above : List KeyPoint} {p : Predicate} (ht : tags.lookup t = some p) (h : Mem p [x]) :
      Mem (.ofUnion tags rest) (.tag (some t) x :: above)
  | unnamed {tags : List (FieldKey × Predicate)} {t : Option FieldKey} {x : KeyPoint}
      {above : List KeyPoint} (ht : ∀ t', t = some t' → tags.lookup t' = none) :
      Mem (.ofUnion tags true) (.tag t x :: above)
  | ofQualified {enclosing here : Predicate} {x : KeyPoint} {above : List KeyPoint}
      (he : Mem enclosing above) (hh : Mem here [x]) :
      Mem (.ofQualified enclosing here) (x :: above)

@[simp] lemma mem_tt : Mem .tt path ↔ True := ⟨fun _ => trivial, fun _ => .tt⟩

@[simp] lemma mem_ff : Mem .ff path ↔ False := ⟨fun h => (by cases h), fun h => h.elim⟩

@[simp] lemma mem_ofBool : Mem (ofBool b) path ↔ b = true := by cases b <;> simp [ofBool]

lemma mem_ofIntervals {s : IntervalSet τ.Val} {x : Point τ.Val} :
    Mem (.ofIntervals τ s) (.scalar τ x :: above) ↔ s.Mem x :=
  ⟨fun h => (by cases h; assumption), .ofIntervals⟩

lemma mem_ofRecord {f : String → KeyPoint} :
    Mem (.ofRecord m) (.record f :: above) ↔ ∀ k p, (k, p) ∈ m → Mem p [f k] :=
  ⟨fun h => (by cases h; assumption), .ofRecord⟩

lemma mem_ofOr : Mem (.ofOr arms) path ↔ ∃ p ∈ arms, Mem p path :=
  ⟨fun h => (by cases h with | ofOr hp h => exact ⟨_, hp, h⟩), fun ⟨_, hp, h⟩ => .ofOr hp h⟩

lemma mem_ofUnion_some {t : FieldKey} :
    Mem (.ofUnion tags rest) (.tag (some t) x :: above) ↔ Mem (atTag tags rest t) [x] := by
  cases ht : tags.lookup t with
  | none =>
    simp only [atTag, ht, getD_none, mem_ofBool]
    constructor
    · intro h
      cases h with
      | named ht' _ => simp [ht] at ht'
      | unnamed _ => rfl
    · rintro rfl
      exact .unnamed fun t' h => by cases h; exact ht
  | some p =>
    simp only [atTag, ht, getD_some]
    constructor
    · intro h
      cases h with
      | named ht' h =>
        obtain rfl : p = _ := mem_unique ht ht'
        exact h
      | unnamed ht' => simp [ht' t rfl] at ht
    · exact .named ht

lemma mem_ofUnion_none : Mem (.ofUnion tags rest) (.tag none x :: above) ↔ rest = true := by
  constructor
  · intro h
    cases h with
    | unnamed _ => rfl
  · rintro rfl
    exact .unnamed fun t' h => by cases h

lemma mem_ofQualified :
    Mem (.ofQualified enclosing here) (x :: above) ↔ Mem enclosing above ∧ Mem here [x] :=
  ⟨fun h => (by cases h; exact ⟨by assumption, by assumption⟩), fun h => .ofQualified h.1 h.2⟩

/-! ## Predicates over levels -/

/-- The predicate is an `Or`. -/
def isOr : Predicate → Bool
  | .ofOr _ => true
  | _ => false

/-- The predicate is made for paths through `levels`, and keeps the invariants of the type. -/
inductive Over : List Extent → Predicate → Prop
  | tt {own : Extent} {above : List Extent} : Over (own :: above) .tt
  | ff {own : Extent} {above : List Extent} : Over (own :: above) .ff
  | ofIntervals {own : Extent} {above : List Extent} {τ : ScalarType} {s : IntervalSet τ.Val}
      (hown : own.resolve.scalarType = some τ) (hs : CanonicalIn τ s) :
      Over (own :: above) (.ofIntervals τ s)
  | ofRecord {own : Extent} {above : List Extent} {es : List (String × Extent)}
      {m : List (String × Predicate)} (hown : own.resolve = .record es) (hasc : KeysAscend m)
      (hkeys : m.map (·.1) = es.map (·.1))
      (h : ∀ k p e, (k, p) ∈ m → es.lookup k = some e → Over [e] p) :
      Over (own :: above) (.ofRecord m)
  | ofOr {levels : List Extent} {arms : List Predicate} (hne : arms ≠ [])
      (h : ∀ p ∈ arms, Over levels p) (hnest : ∀ p ∈ arms, p.isOr = true → p.qualifies = false) :
      Over levels (.ofOr arms)
  | ofUnion {own : Extent} {above : List Extent} {arms : List (FieldKey × Extent)}
      {tags : List (FieldKey × Predicate)} {rest : Bool} (hown : own.resolve = .union arms)
      (hkeys : KeysAscend tags) (hsome : ∀ k p, (k, p) ∈ tags → (arms.lookup k).isSome)
      (h : ∀ k p e, (k, p) ∈ tags → arms.lookup k = some e → Over [e] p) :
      Over (own :: above) (.ofUnion tags rest)
  | ofQualified {own : Extent} {above : List Extent} {enclosing here : Predicate}
      (hne : above ≠ []) (he : Over above enclosing) (hh : Over [own] here) :
      Over (own :: above) (.ofQualified enclosing here)

/-! ### Points of an extent by its shape -/

end Predicate

lemma InExtent.exists_scalar (hx : InExtent e x) (h : e.resolve.scalarType = some τ) :
    ∃ y, x = .scalar τ y ∧ τ.InRange y := by
  rw [← inExtent_resolve_iff] at hx
  revert hx h
  generalize e.resolve = e
  intro hx h
  cases hx with
  | scalar h' hy =>
    obtain rfl := mem_unique h h'
    exact ⟨_, rfl, hy⟩
  | _ => cases h

lemma InExtent.exists_record (hx : InExtent e x) (h : e.resolve = .record es) :
    ∃ f, x = .record f ∧ ∀ k e, es.lookup k = some e → InExtent e (f k) := by
  rw [← inExtent_resolve_iff, h] at hx
  cases hx with
  | scalar h _ => cases h
  | record hf => exact ⟨_, rfl, hf⟩

lemma InExtent.exists_tag {arms : List (FieldKey × Extent)} (hx : InExtent e x)
    (h : e.resolve = .union arms) :
    (∃ t e y, x = .tag (some t) y ∧ arms.lookup t = some e ∧ InExtent e y) ∨
      ∃ y, x = .tag none y := by
  rw [← inExtent_resolve_iff, h] at hx
  cases hx with
  | scalar h _ => cases h
  | named ht hy => exact .inl ⟨_, _, _, rfl, ht, hy⟩
  | unnamed => exact .inr ⟨_, rfl⟩

lemma InLevels.exists_cons {own : Extent} {above : List Extent} (h : InLevels (own :: above) path) :
    ∃ x xs, path = x :: xs ∧ InExtent own x ∧ InLevels above xs := by
  cases h with
  | cons hx hxs => exact ⟨_, _, rfl, hx, hxs⟩

lemma InLevels.exists_singleton (h : InLevels [e] path) : ∃ x, path = [x] ∧ InExtent e x := by
  obtain ⟨x, xs, rfl, hx, hnil⟩ := h.exists_cons
  cases hnil
  exact ⟨x, rfl, hx⟩

lemma inLevels_singleton : InLevels [e] [x] ↔ InExtent e x := by simp [InLevels]

namespace Predicate

/-! ## Emptiness and universality -/

lemma isTrue_iff : p.isTrue = true ↔ p.asBool = some true := by
  rcases h : p.asBool with _ | _ | _ <;> simp [isTrue, h]

lemma isFalse_iff_asBool : p.isFalse = true ↔ p.asBool = some false := by
  rcases h : p.asBool with _ | _ | _ <;> simp [isFalse, h]

lemma asBool_ofRecord_true :
    (ofRecord m).asBool = some true ↔ ∀ k p, (k, p) ∈ m → p.asBool = some true := by
  simp only [asBool_ofRecord, all_map, any_map]
  split_ifs with hall <;> simpa [all_eq_true] using hall

lemma asBool_ofRecord_false :
    (ofRecord m).asBool = some false ↔ ∃ k p, (k, p) ∈ m ∧ p.asBool = some false := by
  simp only [asBool_ofRecord, all_map, any_map]
  split_ifs with hall hany
  · simp only [Option.some.injEq, Bool.true_eq_false, false_iff, not_exists, not_and]
    intro k p hp
    have := (all_eq_true.mp hall) (k, p) hp
    simp_all
  · simpa [any_eq_true] using hany
  · simpa [any_eq_true] using hany

lemma asBool_ofOr_true : (ofOr arms).asBool = some true ↔ ∃ p ∈ arms, p.asBool = some true := by
  simp only [asBool_ofOr, all_map, any_map]
  split_ifs with hany <;> simpa [any_eq_true] using hany

lemma asBool_ofOr_false : (ofOr arms).asBool = some false ↔ ∀ p ∈ arms, p.asBool = some false := by
  simp only [asBool_ofOr, all_map, any_map]
  split_ifs with hany hall
  · obtain ⟨p, hp, htrue⟩ := any_eq_true.mp hany
    simp only [Option.some.injEq, Bool.true_eq_false, false_iff, not_forall]
    refine ⟨p, hp, ?_⟩
    simp_all
  · simpa [all_eq_true] using hall
  · simpa [all_eq_true] using hall

lemma asBool_ofUnion : (ofUnion tags rest).asBool = some b ↔
      rest = b ∧ ∀ k p, (k, p) ∈ tags → p.asBool = some rest := by
  simp only [asBool, all_map]
  split_ifs with hall
  · simp only [Option.some.injEq, iff_self_and]
    rintro rfl
    simpa [all_eq_true] using hall
  · simp only [false_iff, not_and]
    rintro rfl
    simpa [all_eq_true] using hall

lemma asBool_ofQualified_false : (ofQualified enclosing here).asBool = some false ↔
      enclosing.asBool = some false ∨ here.asBool = some false := by
  simp [asBool, or_iff_not_imp_left]

lemma asBool_ofIntervals_ne_false {s : IntervalSet τ.Val} (hs : CanonicalIn τ s) :
    (ofIntervals τ s).asBool ≠ some false := by
  have := hs.nonempty
  simp only [asBool]
  split_ifs <;> simp_all

/-- An interval set read as everything is the whole range of its type. -/
lemma eq_typeRange_of_asBool {s : IntervalSet τ.Val} (hs : CanonicalIn τ s)
    (h : (ofIntervals τ s).asBool = some true) : s = [typeRange τ] := by
  have hwhole : isWhole s ((sample s).map fun _ => typeRange τ) = true := by
    by_contra hnot
    simp [asBool, hnot, hs.nonempty] at h
  rcases s with _ | ⟨iv, _ | _⟩
  · exact absurd rfl hs.nonempty
  · obtain ⟨l, hl⟩ := isSome_iff_exists.mp (hs.left_isSome iv (by simp))
    have hrange : iv = typeRange τ := by simpa [isWhole, sample, hl] using hwhole
    rw [hrange]
  · cases hwhole

/-- **Universality is answered soundly**: what is called everything admits every path. -/
theorem mem_of_isTrue (hp : Over levels p) (h : p.isTrue = true) (hpath : InLevels levels path) :
    Mem p path := by
  rw [isTrue_iff] at h
  induction hp generalizing path with
  | tt => exact .tt
  | ff => simp [asBool] at h
  | @ofIntervals own above τ s hown hs =>
    obtain ⟨x, xs, rfl, hx, _⟩ := hpath.exists_cons
    obtain ⟨y, rfl, hy⟩ := hx.exists_scalar hown
    rw [eq_typeRange_of_asBool hs h, mem_ofIntervals]
    exact ⟨typeRange τ, by simp, hy.2⟩
  | @ofRecord own above es m hown hasc hkeys hm ih =>
    obtain ⟨x, xs, rfl, hx, _⟩ := hpath.exists_cons
    obtain ⟨f, rfl, hf⟩ := hx.exists_record hown
    refine .ofRecord fun k p hp => ?_
    obtain ⟨e, he⟩ := exists_lookup_of_keys_eq hkeys hp
    exact ih k p e hp he (asBool_ofRecord_true.mp h k p hp) (inLevels_singleton.mpr (hf k e he))
  | ofOr hne hp hnest ih =>
    obtain ⟨p, hp, htrue⟩ := asBool_ofOr_true.mp h
    exact .ofOr hp (ih p hp htrue hpath)
  | @ofUnion own above arms tags rest hown hkeys hsome hm ih =>
    obtain ⟨x, xs, rfl, hx, _⟩ := hpath.exists_cons
    obtain ⟨rfl, hall⟩ := asBool_ofUnion.mp h
    rcases hx.exists_tag hown with ⟨t, e, y, rfl, ht, hy⟩ | ⟨y, rfl⟩
    · rw [mem_ofUnion_some, atTag]
      cases hlook : tags.lookup t with
      | none => simp [ofBool]
      | some p =>
        have hp := mem_of_lookup_eq_some hlook
        exact ih t p e hp ht (hall t p hp) (inLevels_singleton.mpr hy)
    · exact mem_ofUnion_none.mpr rfl
  | ofQualified hne he hh ihe ihh => simp [asBool] at h

/-- A predicate that is not called empty admits a path. -/
lemma exists_mem_of_not_isFalse (hp : Over levels p) (h : p.asBool ≠ some false) :
    ∃ path, InLevels levels path ∧ Mem p path := by
  induction hp with
  | @tt own above =>
    obtain ⟨path, hpath⟩ := exists_inLevels (own :: above)
    exact ⟨path, hpath, .tt⟩
  | ff => simp [asBool] at h
  | @ofIntervals own above τ s hown hs =>
    obtain ⟨x, hx, hmem⟩ := hs.exists_mem
    obtain ⟨xs, hxs⟩ := exists_inLevels above
    exact ⟨.scalar τ x :: xs, .cons (.of_resolve rfl (.scalar hown hx)) hxs, .ofIntervals hmem⟩
  | @ofRecord own above es m hown hasc hkeys hm ih =>
    obtain ⟨xs, hxs⟩ := exists_inLevels above
    -- a point for each field, in the region of its predicate
    have hfield : ∀ k, ∃ x, ∀ e, es.lookup k = some e →
        InExtent e x ∧ ∀ p, m.lookup k = some p → Mem p [x] := by
      intro k
      cases hk : es.lookup k with
      | none => exact ⟨.unit, by simp⟩
      | some e =>
        obtain ⟨p, hp⟩ := exists_lookup_of_keys_eq hkeys.symm (mem_of_lookup_eq_some hk)
        have hin := mem_of_lookup_eq_some hp
        obtain ⟨path, hpath, hmem⟩ := ih k p e hin hk fun hfalse =>
          h (asBool_ofRecord_false.mpr ⟨k, p, hin, hfalse⟩)
        obtain ⟨x, rfl, hx⟩ := hpath.exists_singleton
        exact ⟨x, by simp [hp, hx, hmem]⟩
    choose f hf using hfield
    refine ⟨.record f :: xs, .cons (.of_resolve hown (.record fun k e he => (hf k e he).1)) hxs,
      .ofRecord fun k p hp => ?_⟩
    obtain ⟨e, he⟩ := exists_lookup_of_keys_eq hkeys hp
    exact (hf k e he).2 p ((lookup_eq_some_iff_mem hasc.nodup).mpr hp)
  | ofOr hne hp hnest ih =>
    rw [ne_eq, asBool_ofOr_false] at h
    push Not at h
    obtain ⟨p, hp, hfalse⟩ := h
    obtain ⟨path, hpath, hmem⟩ := ih p hp hfalse
    exact ⟨path, hpath, .ofOr hp hmem⟩
  | @ofUnion own above arms tags rest hown hkeys hsome hm ih =>
    obtain ⟨xs, hxs⟩ := exists_inLevels above
    cases rest with
    | true =>
      exact ⟨.tag none .unit :: xs, .cons (.of_resolve hown .unnamed) hxs, mem_ofUnion_none.mpr rfl⟩
    | false =>
      rw [ne_eq, asBool_ofUnion] at h
      push Not at h
      obtain ⟨k, p, hp, hfalse⟩ := h rfl
      obtain ⟨e, he⟩ := isSome_iff_exists.mp (hsome k p hp)
      obtain ⟨path, hpath, hmem⟩ := ih k p e hp he hfalse
      obtain ⟨x, rfl, hx⟩ := hpath.exists_singleton
      exact ⟨.tag (some k) x :: xs, .cons (.of_resolve hown (.named he hx)) hxs,
        .named ((lookup_eq_some_iff_mem hkeys.nodup).mpr hp) hmem⟩
  | ofQualified hne he hh ihe ihh =>
    rw [ne_eq, asBool_ofQualified_false] at h
    push Not at h
    obtain ⟨xs, hxs, hmem⟩ := ihe h.1
    obtain ⟨path, hpath, hmem'⟩ := ihh h.2
    obtain ⟨x, rfl, hx⟩ := hpath.exists_singleton
    exact ⟨x :: xs, .cons hx hxs, .ofQualified hmem hmem'⟩

lemma not_mem_of_isFalse (hp : Over levels p) (h : p.asBool = some false) (path : List KeyPoint) :
    ¬Mem p path := by
  induction hp generalizing path with
  | tt => simp [asBool] at h
  | ff => simp
  | ofIntervals hown hs => exact absurd h (asBool_ofIntervals_ne_false hs)
  | @ofRecord own above es m hown hasc hkeys hm ih =>
    obtain ⟨k, p, hp, hfalse⟩ := asBool_ofRecord_false.mp h
    obtain ⟨e, he⟩ := exists_lookup_of_keys_eq hkeys hp
    intro hmem
    cases hmem with
    | ofRecord hfields => exact ih k p e hp he hfalse _ (hfields k p hp)
  | ofOr hne hp hnest ih =>
    intro hmem
    obtain ⟨p, hp, hmem⟩ := mem_ofOr.mp hmem
    exact ih p hp (asBool_ofOr_false.mp h p hp) path hmem
  | @ofUnion own above arms tags rest hown hkeys hsome hm ih =>
    obtain ⟨rfl, hall⟩ := asBool_ofUnion.mp h
    intro hmem
    cases hmem with
    | named ht hmem =>
      have hp := mem_of_lookup_eq_some ht
      obtain ⟨e, he⟩ := isSome_iff_exists.mp (hsome _ _ hp)
      exact ih _ _ e hp he (hall _ _ hp) _ hmem
  | ofQualified hne he hh ihe ihh =>
    intro hmem
    cases hmem with
    | ofQualified hmem hmem' =>
      rcases asBool_ofQualified_false.mp h with hfalse | hfalse
      · exact ihe hfalse _ hmem
      · exact ihh hfalse _ hmem'

/-- Arms that admit nothing can be left out. -/
lemma exists_mem_not_isFalse {arms : List Predicate} {path : List KeyPoint}
    (h : ∀ p ∈ arms, Over levels p) :
    (∃ p ∈ arms.filter fun p => !p.isFalse, Mem p path) ↔ ∃ p ∈ arms, Mem p path := by
  refine exists_congr fun p => ?_
  rw [mem_filter, and_assoc]
  refine and_congr_right fun hp => and_iff_right_of_imp fun hmem => ?_
  rw [Bool.not_eq_true', ← Bool.not_eq_true]
  exact fun hfalse => not_mem_of_isFalse (h p hp) (isFalse_iff_asBool.mp hfalse) path hmem

/-- **Emptiness is answered exactly.** -/
theorem isFalse_iff (hp : Over levels p) :
    p.isFalse = true ↔ ∀ path, InLevels levels path → ¬Mem p path := by
  rw [isFalse_iff_asBool]
  constructor
  · intro h path _
    exact not_mem_of_isFalse hp h path
  · intro h
    by_contra hne
    obtain ⟨path, hpath, hmem⟩ := exists_mem_of_not_isFalse hp hne
    exact h path hpath hmem

/-! ## Predicates of the innermost level -/

lemma qualifies_ofOr : (ofOr arms).qualifies = false ↔ ∀ p ∈ arms, p.qualifies = false := by
  simp [qualifies, any_eq_false]

lemma Over.not_qualifies (hp : Over [e] p) : p.qualifies = false := by
  generalize hl : [e] = levels at hp
  induction hp with
  | ofOr hne hp hnest ih => exact qualifies_ofOr.mpr fun p hp => ih p hp hl
  | ofQualified hne he hh ihe ihh =>
    cases hl
    exact absurd rfl hne
  | _ => simp [qualifies]

/-- A predicate that names no enclosing path says the same under every one. -/
lemma mem_cons_iff (hp : p.qualifies = false) : Mem p (x :: above) ↔ Mem p [x] := by
  induction p with
  | tt | ff => simp
  | ofIntervals τ s =>
    constructor <;> (rintro ⟨⟩; exact .ofIntervals (by assumption))
  | ofRecord m ih =>
    constructor <;> (rintro ⟨⟩; exact .ofRecord (by assumption))
  | ofOr arms ih =>
    rw [mem_ofOr, mem_ofOr]
    exact exists_congr fun p => and_congr_right fun hmem =>
      ih p hmem (qualifies_ofOr.mp hp p hmem)
  | ofUnion tags rest ih =>
    constructor
    all_goals
      rintro h
      cases h with
      | named ht h => exact .named ht h
      | unnamed ht => exact .unnamed ht
  | ofQualified e h ihe ihh => simp [qualifies] at hp

/-- A predicate that names no enclosing path is over its own level, whatever is above. -/
lemma Over.relevel {own : Extent} {above : List Extent} (hp : Over (own :: above) p)
    (hq : p.qualifies = false) (above' : List Extent) : Over (own :: above') p := by
  generalize hl : own :: above = levels at hp
  induction hp with
  | tt => cases hl; exact .tt
  | ff => cases hl; exact .ff
  | ofIntervals hown hs => cases hl; exact .ofIntervals hown hs
  | ofRecord hown hasc hkeys hm _ => cases hl; exact .ofRecord hown hasc hkeys hm
  | ofOr hne hp hnest ih =>
    exact .ofOr hne (fun p hp => ih p hp (qualifies_ofOr.mp hq p hp) hl) hnest
  | ofUnion hown hkeys hsome hm _ => cases hl; exact .ofUnion hown hkeys hsome hm
  | ofQualified hne he hh => simp [qualifies] at hq

lemma Over.own {own : Extent} {above : List Extent} (hp : Over (own :: above) p)
    (hq : p.qualifies = false) : Over [own] p :=
  hp.relevel hq []

lemma Over.under {own : Extent} (hp : Over [own] p) (above : List Extent) : Over (own :: above) p :=
  hp.relevel hp.not_qualifies above

lemma Over.arms_ne_nil {arms : List Predicate} (h : Over levels (.ofOr arms)) : arms ≠ [] := by
  cases h with
  | ofOr hne => exact hne

lemma Over.of_mem_arms {arms : List Predicate} (h : Over levels (.ofOr arms)) (hp : p ∈ arms) :
    Over levels p := by
  cases h with
  | ofOr _ hover _ => exact hover p hp

/-- What holds of the predicates that are no `Or`, and of an `Or` where it holds of the arms. -/
@[elab_as_elim]
lemma Over.or_induction {P : Predicate → Prop} (hp : Over levels p)
    (hor : ∀ arms, (∀ p ∈ arms, P p) → P (.ofOr arms))
    (hatom : ∀ p, Over levels p → p.isOr = false → P p) : P p := by
  induction p with
  | ofOr arms ih => exact hor arms fun p hmem => ih p hmem (hp.of_mem_arms hmem)
  | _ => exact hatom _ hp rfl

lemma Over.ofBool {own : Extent} {above : List Extent} : Over (own :: above) (ofBool b) := by
  cases b with
  | false => exact .ff
  | true => exact .tt

lemma over_ofUnion_iff {own : Extent} {above : List Extent} {arms : List (FieldKey × Extent)}
    (hown : own.resolve = .union arms) : Over (own :: above) (.ofUnion tags rest) ↔
      KeysAscend tags ∧ ∀ kp ∈ tags, ∃ e, arms.lookup kp.1 = some e ∧ Over [e] kp.2 := by
  constructor
  · intro h
    cases h with
    | ofUnion hown' hasc hsome h =>
      obtain rfl : arms = _ := by simpa [hown] using hown'
      refine ⟨hasc, fun kp hkp => ?_⟩
      obtain ⟨e, he⟩ := isSome_iff_exists.mp (hsome kp.1 kp.2 hkp)
      exact ⟨e, he, h kp.1 kp.2 e hkp he⟩
  · rintro ⟨hasc, h⟩
    refine .ofUnion hown hasc (fun k p hp => ?_) fun k p e hp he => ?_ <;>
      obtain ⟨e', he', hover⟩ := h _ hp
    · simp [he']
    · exact mem_unique he he' ▸ hover

lemma Over.levels_ne_nil (hp : Over levels p) : levels ≠ [] := by
  induction hp with
  | @ofOr levels arms hne hp hnest ih =>
    obtain ⟨p, hp⟩ := exists_mem_of_ne_nil arms hne
    exact ih p hp
  | _ => simp

end Predicate

/-! ## Reading values -/

lemma Extent.resolve_eq_of_scalarType (h : e.scalarType = some τ) : e.resolve = e := by
  cases e with
  | dataSourceDomain | restricted => cases h
  | _ => rfl

lemma ofExtent_resolve_iff : v.OfExtent e.resolve ↔ v.OfExtent e := by
  cases e with
  | dataSourceDomain e =>
    exact ⟨.dataSourceDomain, fun | .scalar h _ => nomatch h | .dataSourceDomain h => h⟩
  | restricted e => exact ⟨.restricted, fun | .scalar h _ => nomatch h | .restricted h => h⟩
  | _ => rfl

lemma ofOpen_resolve_iff : v.OfOpen e.resolve ↔ v.OfOpen e := by
  cases e with
  | dataSourceDomain e =>
    exact ⟨.dataSourceDomain, fun | .scalar h _ => nomatch h | .dataSourceDomain h => h⟩
  | restricted e => exact ⟨.restricted, fun | .scalar h _ => nomatch h | .restricted h => h⟩
  | _ => rfl

lemma Value.OfOpen.exists_scalar (hv : v.OfOpen e) (h : e.resolve.scalarType = some τ) :
    ∃ w, v = .scalar τ w := by
  rw [← ofOpen_resolve_iff] at hv
  revert hv h
  generalize e.resolve = e
  intro hv h
  cases hv with
  | scalar h' w =>
    obtain rfl := mem_unique h h'
    exact ⟨w, rfl⟩
  | _ => cases h

lemma Value.OfOpen.exists_record (hv : v.OfOpen e) (h : e.resolve = .record es) :
    ∃ fields, v = .record fields ∧ ∀ k e, es.lookup k = some e →
      ∃ w, fields.lookup k = some w ∧ w.OfOpen e := by
  rw [← ofOpen_resolve_iff, h] at hv
  cases hv with
  | scalar h _ => cases h
  | record hsome hf =>
    refine ⟨_, rfl, fun k e he => ?_⟩
    obtain ⟨w, hw⟩ := isSome_iff_exists.mp (hsome k e he)
    exact ⟨w, hw, hf k e w he hw⟩

lemma Value.OfOpen.exists_union {arms : List (FieldKey × Extent)} (hv : v.OfOpen e)
    (h : e.resolve = .union arms) :
    ∃ t w, v = .union t w ∧ ∀ e, arms.lookup t = some e → w.OfOpen e := by
  rw [← ofOpen_resolve_iff, h] at hv
  cases hv with
  | scalar h _ => cases h
  | union ht hw => exact ⟨_, _, rfl, fun e he => mem_unique ht he ▸ hw⟩
  | unlisted ht => exact ⟨_, _, rfl, fun e he => absurd (ht.symm.trans he) (by simp)⟩

lemma Value.OfExtent.exists_record (hv : v.OfExtent e) (h : e.resolve = .record es) :
    ∃ fields, v = .record fields ∧ ∀ k e, es.lookup k = some e →
      ∃ w, fields.lookup k = some w ∧ w.OfExtent e := by
  rw [← ofExtent_resolve_iff, h] at hv
  cases hv with
  | scalar h _ => cases h
  | record hsome hf =>
    refine ⟨_, rfl, fun k e he => ?_⟩
    obtain ⟨w, hw⟩ := isSome_iff_exists.mp (hsome k e he)
    exact ⟨w, hw, hf k e w he hw⟩

lemma Value.OfExtent.exists_union {arms : List (FieldKey × Extent)} (hv : v.OfExtent e)
    (h : e.resolve = .union arms) :
    ∃ t e w, v = .union t w ∧ arms.lookup t = some e ∧ w.OfExtent e := by
  rw [← ofExtent_resolve_iff, h] at hv
  cases hv with
  | scalar h _ => cases h
  | union ht hw => exact ⟨_, _, _, rfl, ht, hw⟩

namespace Predicate

lemma contains_decides_open (hp : Over [e] p) (hv : v.OfOpen e) :
    Decides (p.contains v) (Mem p [v.point]) := by
  generalize hl : [e] = levels at hp
  induction hp generalizing e v with
  | tt =>
    rw [contains_def]
    exact .of_true rfl .tt
  | ff =>
    rw [contains_def]
    exact .of_false rfl (by simp)
  | @ofIntervals own above τ s hown hs =>
    cases hl
    obtain ⟨w, rfl⟩ := hv.exists_scalar hown
    rw [contains_def]
    refine ⟨holds s w, by simp, ?_⟩
    rw [holds_iff hs.canonical, Value.point, mem_ofIntervals]
  | @ofRecord own above es m hown hasc hkeys hm ih =>
    cases hl
    obtain ⟨fields, rfl, hfields⟩ := hv.exists_record hown
    rw [contains_def, Value.point, mem_ofRecord]
    refine (Decides.allM (P := fun kp => Mem kp.2 [Value.fieldPoint fields kp.1]) ?_).congr ?_
    · rintro ⟨k, p⟩ hp
      obtain ⟨e', he'⟩ := exists_lookup_of_keys_eq hkeys hp
      obtain ⟨w, hw, hwe⟩ := hfields k e' he'
      simp only [hw, Value.fieldPoint_eq hw]
      exact ih k p e' hp he' hwe rfl
    · simp
  | @ofOr levels arms hne hp hnest ih =>
    rw [contains_def, mem_ofOr]
    exact Decides.anyM fun p hp => ih p hp hv hl
  | @ofUnion own above arms tags rest hown hkeys hsome hm ih =>
    cases hl
    obtain ⟨t, w, rfl, hw⟩ := hv.exists_union hown
    rw [contains_def, Value.point, mem_ofUnion_some, atTag]
    dsimp only
    cases hlook : tags.lookup t with
    | none => exact ⟨rest, rfl, by simp⟩
    | some p =>
      have hp := mem_of_lookup_eq_some hlook
      obtain ⟨e', ht⟩ := isSome_iff_exists.mp (hsome t p hp)
      exact ih t p e' hp ht (hw e' ht) rfl
  | ofQualified hne he hh ihe ihh =>
    cases hl
    exact absurd rfl hne

/-- A path of values of the levels. -/
def ValuesOf (levels : List Extent) (path : List Value) : Prop :=
  List.Forall₂ (fun e v => Value.OfExtent e v) levels path

lemma ValuesOf.inLevels {path : List Value} (h : ValuesOf levels path) :
    InLevels levels (path.map Value.point) := by
  induction h with
  | nil => exact .nil
  | cons hv _ ih => exact .cons hv.point ih

/-- A path of values of the levels with their unions read as open. -/
def OpenValuesOf (levels : List Extent) (path : List Value) : Prop :=
  List.Forall₂ (fun e v => Value.OfOpen e v) levels path

lemma ValuesOf.toOpen {path : List Value} (h : ValuesOf levels path) : OpenValuesOf levels path :=
  h.imp fun _ _ hv => hv.toOpen

/-- **Reading a path of values answers membership**, and never panics. -/
theorem containsPath_decides_open (hp : Over levels p) {path : List Value}
    (hpath : OpenValuesOf levels path) :
    Decides (p.containsPath path) (Mem p (path.map Value.point)) := by
  -- an unqualified predicate reads the innermost key
  have hinner : ∀ {own v values} {p : Predicate}, Over [own] p → Value.OfOpen own v →
      Decides (p.contains v) (Mem p (Value.point v :: values)) := fun hp hv =>
    (contains_decides_open hp hv).congr (mem_cons_iff hp.not_qualifies).symm
  induction hp generalizing path with
  | tt =>
    rw [containsPath_def]
    exact .of_true rfl .tt
  | ff =>
    rw [containsPath_def]
    exact .of_false rfl (by simp)
  | ofIntervals hown hs =>
    cases hpath with
    | cons hv _ =>
      rw [containsPath_def]
      exact hinner (.ofIntervals hown hs) hv
  | ofRecord hown hasc hkeys hm _ =>
    cases hpath with
    | cons hv _ =>
      rw [containsPath_def]
      exact hinner (.ofRecord hown hasc hkeys hm) hv
  | ofOr hne hp hnest ih =>
    rw [containsPath_def, mem_ofOr]
    exact Decides.anyM fun p hp => ih p hp hpath
  | ofUnion hown hkeys hsome hm _ =>
    cases hpath with
    | cons hv _ =>
      rw [containsPath_def]
      exact hinner (.ofUnion hown hkeys hsome hm) hv
  | ofQualified hne he hh ihe _ =>
    cases hpath with
    | cons hv hrest =>
      rw [containsPath_def, map_cons, mem_ofQualified]
      exact (ihe hrest).and fun _ => contains_decides_open hh hv

theorem containsPath_decides (hp : Over levels p) {path : List Value} (hpath : ValuesOf levels path)
    :
    Decides (p.containsPath path) (Mem p (path.map Value.point)) :=
  containsPath_decides_open hp hpath.toOpen

end Predicate

/-! ## Applicability -/

/-- The maps inside an extent list their keys once and in order. -/
inductive Extent.WellFormed : Extent → Prop
  | base {b : BaseType} : WellFormed (.base b)
  | function {d c : Extent} : WellFormed (.function d c)
  | record {es : List (String × Extent)} (hasc : KeysAscend es)
      (h : ∀ k e, (k, e) ∈ es → WellFormed e) : WellFormed (.record es)
  | union {arms : List (FieldKey × Extent)} (hasc : KeysAscend arms)
      (h : ∀ k e, (k, e) ∈ arms → WellFormed e) : WellFormed (.union arms)
  | uintRange : WellFormed .uintRange
  | dataSourceDomain {e : Extent} (h : WellFormed e) : WellFormed (.dataSourceDomain e)
  | restricted {e : Extent} (h : WellFormed e) : WellFormed (.restricted e)

lemma Extent.WellFormed.resolve (h : e.WellFormed) : e.resolve.WellFormed := by
  cases h with
  | dataSourceDomain h => exact h
  | restricted h => exact h
  | base => exact .base
  | function => exact .function
  | record hasc h => exact .record hasc h
  | union hasc h => exact .union hasc h
  | uintRange => exact .uintRange

lemma Extent.WellFormed.record_fields {own : Extent} (h : own.WellFormed)
    (hown : own.resolve = .record es) :
    KeysAscend es ∧ ∀ k e, es.lookup k = some e → e.WellFormed := by
  have := h.resolve
  rw [hown] at this
  cases this with
  | record hasc h => exact ⟨hasc, fun k e he => h k e (mem_of_lookup_eq_some he)⟩

lemma Extent.WellFormed.union_arms {own : Extent} (h : own.WellFormed)
    {arms : List (FieldKey × Extent)} (hown : own.resolve = .union arms) :
    ∀ k e, arms.lookup k = some e → e.WellFormed := by
  have := h.resolve
  rw [hown] at this
  cases this with
  | union hasc h => exact fun k e he => h k e (mem_of_lookup_eq_some he)

namespace Predicate

/-- The invariants the type keeps, whatever the levels. -/
inductive WellFormed : Predicate → Prop
  | tt : WellFormed .tt
  | ff : WellFormed .ff
  | ofIntervals {τ : ScalarType} {s : IntervalSet τ.Val} (hs : CanonicalIn τ s) :
      WellFormed (.ofIntervals τ s)
  | ofRecord {m : List (String × Predicate)} (hasc : KeysAscend m)
      (h : ∀ k p, (k, p) ∈ m → WellFormed p) : WellFormed (.ofRecord m)
  | ofOr {arms : List Predicate} (hne : arms ≠ []) (h : ∀ p ∈ arms, WellFormed p)
      (hnest : ∀ p ∈ arms, p.isOr = true → p.qualifies = false) : WellFormed (.ofOr arms)
  | ofUnion {tags : List (FieldKey × Predicate)} {rest : Bool} (hasc : KeysAscend tags)
      (h : ∀ k p, (k, p) ∈ tags → WellFormed p) : WellFormed (.ofUnion tags rest)
  | ofQualified {enclosing here : Predicate} (he : WellFormed enclosing) (hh : WellFormed here) :
      WellFormed (.ofQualified enclosing here)

lemma Over.wellFormed (hp : Over levels p) : p.WellFormed := by
  induction hp with
  | tt => exact .tt
  | ff => exact .ff
  | ofIntervals hown hs => exact .ofIntervals hs
  | ofRecord hown hasc hkeys hm ih =>
    refine .ofRecord hasc fun k p hp => ?_
    obtain ⟨e, he⟩ := exists_lookup_of_keys_eq hkeys hp
    exact ih k p e hp he
  | ofOr hne hp hnest ih => exact .ofOr hne ih hnest
  | ofUnion hown hkeys hsome hm ih =>
    refine .ofUnion hkeys fun k p hp => ?_
    obtain ⟨e, he⟩ := isSome_iff_exists.mp (hsome k p hp)
    exact ih k p e hp he
  | ofQualified hne he hh ihe ihh => exact .ofQualified ihe ihh

attribute [local simp] Predicate.isApplicableOver

lemma Over.isApplicableOver (hp : Over levels p) : p.isApplicableOver levels = true := by
  induction hp with
  | tt | ff => simp
  | ofIntervals hown hs => simp [hown]
  | @ofRecord own above es m hown hasc hkeys hm ih =>
    have hlen : m.length = es.length := by simpa using congrArg List.length hkeys
    simp [hown, hlen]
    intro k p hp
    obtain ⟨e, he⟩ := exists_lookup_of_keys_eq hkeys hp
    simpa [he] using ih k p e hp he
  | ofOr hne hp hnest ih => simpa using ih
  | @ofUnion own above arms tags rest hown hkeys hsome hm ih =>
    simp [hown]
    intro k p hp
    obtain ⟨e, he⟩ := isSome_iff_exists.mp (hsome k p hp)
    simpa [he] using ih k p e hp he
  | ofQualified hne he hh ihe ihh => simp [hne, ihe, ihh]

lemma WellFormed.over (hl : ∀ e ∈ levels, e.WellFormed) (hp : p.WellFormed)
    (h : p.isApplicableOver levels = true) : Over levels p := by
  induction hp generalizing levels with
  | tt =>
    cases levels with
    | nil => simp at h
    | cons own above => exact .tt
  | ff =>
    cases levels with
    | nil => simp at h
    | cons own above => exact .ff
  | @ofIntervals τ s hs =>
    cases levels with
    | nil => simp at h
    | cons own above =>
      refine .ofIntervals ?_ hs
      obtain ⟨iv, rest, rfl⟩ := exists_cons_of_ne_nil hs.nonempty
      obtain ⟨l, hleft⟩ := isSome_iff_exists.mp (hs.left_isSome iv (by simp))
      simpa [hleft] using h
  | @ofRecord m hasc hm ih =>
    cases levels with
    | nil => simp at h
    | cons own above =>
      cases hown : own.resolve with
      | record es =>
        simp [hown] at h
        obtain ⟨hlen, hall⟩ := h
        obtain ⟨hes, hwf⟩ := (hl own (by simp)).record_fields hown
        have hfield : ∀ k p, (k, p) ∈ m → ∃ e, es.lookup k = some e ∧
            p.isApplicableOver [e] = true := fun k p hp => by
          simpa [Option.any_eq_true] using hall k p hp
        have hkeys := hasc.keys_eq hes (fun k p hp => (hfield k p hp).imp fun _ h => h.1) hlen
        refine .ofRecord hown hasc hkeys fun k p e hp he => ?_
        obtain ⟨e', he', happ⟩ := hfield k p hp
        obtain rfl := mem_unique he he'
        exact ih k p hp (by simpa using hwf k e he) happ
      | _ => simp [hown] at h
  | @ofOr arms hne hp hnest ih =>
    refine .ofOr hne (fun p hp => ih p hp hl ?_) hnest
    have hall : ∀ p ∈ arms, p.isApplicableOver levels = true := by simpa using h
    exact hall p hp
  | @ofUnion tags rest hasc hm ih =>
    cases levels with
    | nil => simp at h
    | cons own above =>
      cases hown : own.resolve with
      | union arms =>
        simp [hown] at h
        have hfield : ∀ k p, (k, p) ∈ tags → ∃ e, arms.lookup k = some e ∧
            p.isApplicableOver [e] = true := fun k p hp => by
          simpa [Option.any_eq_true] using h k p hp
        refine .ofUnion hown hasc (fun k p hp => ?_) fun k p e hp he => ?_
        · obtain ⟨e, he, _⟩ := hfield k p hp
          simp [he]
        · obtain ⟨e', he', happ⟩ := hfield k p hp
          obtain rfl := mem_unique he he'
          exact ih k p hp (by simpa using (hl own (by simp)).union_arms hown k e he) happ
      | _ => simp [hown] at h
  | ofQualified he hh ihe ihh =>
    cases levels with
    | nil => simp at h
    | cons own above =>
      simp at h
      exact .ofQualified h.1.1 (ihe (fun e he => hl e (by simp [he])) h.1.2)
        (ihh (by simpa using hl own (by simp)) h.2)

/-- **`Over` is applicability of a well-formed predicate.** -/
theorem over_iff (hl : ∀ e ∈ levels, e.WellFormed) :
    Over levels p ↔ p.WellFormed ∧ p.isApplicableOver levels = true :=
  ⟨fun h => ⟨h.wellFormed, h.isApplicableOver⟩, fun h => h.1.over hl h.2⟩

end Predicate

end Cambra
