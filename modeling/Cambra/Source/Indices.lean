import Cambra.Tiling.Algebra

/-!
# Predicates and interval sets over stream indices

A stream source is indexed by `u64` counters, so what a producer has released of it is a predicate
over one `UInt` level.  Such a predicate is constant or an interval set; `indices` is the set of
counters it admits, and `union` and `intersect` are union and intersection of those sets.

The second half is about interval sets that lie within a bounded window of indices.  Every
interval of such a set is closed on both sides (`IntervalSet.Valid.closed`), which is what lets the
buffer read an interval as a run of consecutive counters.
-/

namespace Cambra

open Domain

namespace Predicate

/-! ## Index sets -/

/-- A predicate that names a set of stream indices: constant, or a canonical interval set. -/
def IsIndexSet (p : Predicate) : Prop := Atom (.base .uint) p

/-- The stream indices a predicate admits. -/
def indices (p : Predicate) : Set ℕ :=
  {i | ∃ h : i < 2 ^ 64, p.Mem [.scalar .uint (.here (⟨i, h⟩ : U64))]}

lemma isIndexSet_tt : IsIndexSet .tt := ⟨.tt, rfl⟩

lemma isIndexSet_ff : IsIndexSet .ff := ⟨.ff, rfl⟩

variable {p : Predicate} {i : ℕ}

lemma IsIndexSet.cases (hp : IsIndexSet p) :
    p = .tt ∨ p = .ff ∨ ∃ s, p = .ofIntervals .uint s ∧ CanonicalIn .uint s := by
  rcases hp.1.atom_cases hp.2 with rfl | rfl | ⟨τ, s, rfl, hown, hs⟩ | ⟨es, m, rfl, hown⟩ |
    ⟨arms, ps, pr, rfl, hown⟩
  · exact .inl rfl
  · exact .inr (.inl rfl)
  · obtain rfl : τ = .uint := by simpa [Extent.resolve, Extent.scalarType] using hown.symm
    exact .inr (.inr ⟨s, rfl, hs⟩)
  · cases hown
  · cases hown

lemma mem_indices_tt : i ∈ indices .tt ↔ i < 2 ^ 64 := by simp [indices]

@[simp] lemma indices_ff : indices .ff = ∅ := by
  ext i
  simp [indices]

lemma mem_indices_ofIntervals {s : IntervalSet ScalarType.uint.Val} :
    i ∈ indices (.ofIntervals .uint s) ↔ ∃ h : i < 2 ^ 64, s.Mem (.here (⟨i, h⟩ : U64)) := by
  simp [indices, mem_ofIntervals]

lemma inLevels_index (i : U64) : InLevels [.base .uint] [.scalar .uint (.here i)] := by
  refine inLevels_singleton.mpr (.scalar rfl ⟨trivial, ?_, ?_⟩)
  · rintro _ ⟨⟩
    simp [Bound.Holds, Point.Lt]
  · rintro _ ⟨⟩

/-- What an operation returns over one `UInt` level, read as an index set. -/
lemma Returns.indices {o : Option Predicate} {S : List KeyPoint → Prop}
    (h : Returns [.base .uint] (fun r => r.isOr = false) o S) :
    ∃ r, o = some r ∧ IsIndexSet r ∧
      ∀ i, i ∈ r.indices ↔ ∃ h : i < 2 ^ 64, S [.scalar .uint (.here (⟨i, h⟩ : U64))] := by
  obtain ⟨r, hr, hover, hor, hmem⟩ := h
  exact ⟨r, hr, ⟨hover, hor⟩, fun i => exists_congr fun hi => hmem _ (inLevels_index ⟨i, hi⟩)⟩

variable [ScalarOps] {q : Predicate}

lemma IsIndexSet.union (hp : IsIndexSet p) (hq : IsIndexSet q) :
    ∃ r, p.union q = some r ∧ IsIndexSet r ∧ r.indices = p.indices ∪ q.indices := by
  suffices h : Returns [.base .uint] (fun r => r.isOr = false) (Predicate.union p q)
      (fun x => Mem p x ∨ Mem q x) by
    obtain ⟨r, hr, hset, hmem⟩ := h.indices
    refine ⟨r, hr, hset, Set.ext fun i => ?_⟩
    rw [hmem, Set.mem_union]
    simp [Predicate.indices, exists_or]
  rw [Predicate.union_def]
  rcases hp.cases with rfl | rfl | ⟨s, rfl, hs⟩
  · exact ⟨.tt, rfl, .tt, rfl, by simp⟩
  · refine ⟨q, ?_, hq.1, hq.2, by simp⟩
    rcases hq.cases with rfl | rfl | ⟨t, rfl, ht⟩ <;> rfl
  rcases hq.cases with rfl | rfl | ⟨t, rfl, ht⟩
  · exact ⟨.tt, rfl, .tt, rfl, by simp⟩
  · exact ⟨_, rfl, hp.1, hp.2, by simp⟩
  · simp only [dite_true]
    refine (intervals_spec rfl (IntervalOps.union_valid hs.canonical ht.canonical)).congr
      fun x hx => ?_
    obtain ⟨k, rfl, hk⟩ := hx.exists_singleton
    obtain ⟨y, rfl, hy⟩ := hk.exists_scalar rfl
    simp only [mem_ofIntervals, IntervalOps.mem_union hs.canonical ht.canonical hy.1]

lemma IsIndexSet.intersect (hp : IsIndexSet p) (hq : IsIndexSet q) :
    ∃ r, p.intersect q = some r ∧ IsIndexSet r ∧ r.indices = p.indices ∩ q.indices := by
  suffices h : Returns [.base .uint] (fun r => r.isOr = false) (Predicate.intersect p q)
      (fun x => Mem p x ∧ Mem q x) by
    obtain ⟨r, hr, hset, hmem⟩ := h.indices
    refine ⟨r, hr, hset, Set.ext fun i => ?_⟩
    rw [hmem, Set.mem_inter_iff]
    exact ⟨fun ⟨hi, hp, hq⟩ => ⟨⟨hi, hp⟩, hi, hq⟩, fun ⟨⟨hi, hp⟩, _, hq⟩ => ⟨hi, hp, hq⟩⟩
  rw [Predicate.intersect_def]
  rcases hp.cases with rfl | rfl | ⟨s, rfl, hs⟩
  · exact ⟨q, rfl, hq.1, hq.2, by simp⟩
  · refine ⟨.ff, ?_, .ff, rfl, by simp⟩
    rcases hq.cases with rfl | rfl | ⟨t, rfl, ht⟩ <;> rfl
  rcases hq.cases with rfl | rfl | ⟨t, rfl, ht⟩
  · exact ⟨_, rfl, hp.1, hp.2, by simp⟩
  · exact ⟨.ff, rfl, .ff, rfl, by simp⟩
  · simp only [dite_true]
    refine (intervals_spec rfl (IntervalOps.intersection_valid hs.canonical.valid
      ht.canonical.valid)).congr fun x hx => ?_
    obtain ⟨k, rfl, hk⟩ := hx.exists_singleton
    obtain ⟨y, rfl, hy⟩ := hk.exists_scalar rfl
    simp only [mem_ofIntervals,
      IntervalOps.mem_intersection hs.canonical.valid ht.canonical.valid hy.1]

omit [ScalarOps] in
/-- A predicate that answers `is_true` admits every index. -/
lemma IsIndexSet.mem_of_isTrue (hp : IsIndexSet p) (h : p.isTrue = true) (hi : i < 2 ^ 64) :
    i ∈ p.indices :=
  ⟨hi, Predicate.mem_of_isTrue hp.1 h (inLevels_index ⟨i, hi⟩)⟩

end Predicate

/-! ## Runs of indices -/

/-- A stream index, as the interval sets of the buffer hold it. -/
abbrev Index := ScalarType.uint.Val

variable {a b hi lo : Index} {s : IntervalSet Index}

lemma Index.lt_iff : a < b ↔ a.1 < b.1 := Iff.rfl

lemma Index.tryAdjacent_right_eq_none (h : tryAdjacent .right a = none) : a.1 + 1 = 2 ^ 64 := by
  have hnone : ¬a.1 + 1 < 2 ^ 64 := fun hlt => by
    have hsome : tryAdjacent .right a = some (⟨a.1 + 1, hlt⟩ : U64) := dif_pos hlt
    simp [hsome] at h
  have := a.2
  omega

lemma Index.tryAdjacent_left_eq_none (h : tryAdjacent .left a = none) : a.1 = 0 := by
  by_contra hne
  have hsome : tryAdjacent .left a = some (⟨a.1 - 1, by omega⟩ : U64) :=
    if_pos (Nat.one_le_iff_ne_zero.mpr hne)
  simp [hsome] at h

/-- The indices from `lo` through `hi`. -/
def closedRun (lo hi : Index) : Interval Index := ⟨some ⟨false, lo⟩, some ⟨false, hi⟩⟩

lemma mem_closedRun {x : Point Index} : (closedRun lo hi).Mem x ↔ ¬x.Lt lo ∧ ¬x.Gt hi := by
  simp [closedRun, Interval.Mem, Bound.Holds]

variable {i : Index} {iv : Interval Index}

lemma mem_closedRun_here : (closedRun lo hi).Mem (.here i) ↔ lo.1 ≤ i.1 ∧ i.1 ≤ hi.1 := by
  rw [mem_closedRun]
  exact and_congr not_lt not_lt

lemma closedRun_proper (h : lo.1 ≤ hi.1) : (closedRun lo hi).Proper := by
  refine ⟨?_, ?_, ?_⟩
  · rintro _ ⟨⟩
    rfl
  · rintro _ ⟨⟩
    rfl
  · rintro _ ⟨⟩ _ ⟨⟩
    rcases h.lt_or_eq with hlt | heq
    · exact .inl hlt
    · exact .inr ⟨Fin.ext heq, rfl, rfl⟩

lemma closedRun_canonical (h : lo.1 ≤ hi.1) : IntervalSet.Canonical [closedRun lo hi] :=
  ⟨by simpa using closedRun_proper h, by simp⟩

/-- **A set within a bounded window of indices is made of closed runs.**  The counters are
discrete, so a normalized bound is open only at an end of the whole line. -/
lemma IntervalSet.Valid.closed (hs : s.Valid)
    (hwithin : ∀ x : Point Index, x.Valid → s.Mem x → (closedRun lo hi).Mem x) (hiv : iv ∈ s) :
    ∃ a b : Index, iv = closedRun a b ∧ a.1 ≤ b.1 := by
  obtain ⟨left, right⟩ := iv
  cases left with
  | none =>
    -- the point below every counter would be in the window
    have hmem : (⟨none, right⟩ : Interval Index).Mem (.below (0 : U64)) := by
      refine ⟨by simp, fun r _ => ?_⟩
      rcases ho : r.isOpen with _ | _
      · simp only [Bound.Holds, ho, Bool.false_eq_true, if_false, Point.Gt]
        exact not_lt.mpr (Nat.zero_le _)
      · simp only [Bound.Holds, ho, if_true, Point.Lt]
        exact Nat.zero_le _
    have hvalid : (Point.below (0 : U64) : Point Index).Valid := rfl
    have := (mem_closedRun.mp (hwithin _ hvalid ⟨_, hiv, hmem⟩)).1
    exact absurd (Nat.zero_le _) this
  | some l =>
    cases right with
    | none =>
      have hlast : ∀ i : Index, i.1 ≤ 2 ^ 64 - 1 := fun i => by
        have := i.2
        omega
      have hmem : (⟨some l, none⟩ : Interval Index).Mem
          (.above (⟨2 ^ 64 - 1, by omega⟩ : U64)) := by
        refine ⟨?_, by simp⟩
        rintro _ ⟨⟩
        rcases ho : l.isOpen with _ | _
        · simp only [Bound.Holds, ho, Bool.false_eq_true, if_false, Point.Lt]
          exact not_lt.mpr (hlast l.value)
        · simp only [Bound.Holds, ho, if_true, Point.Gt]
          exact hlast l.value
      have hvalid : (Point.above (⟨2 ^ 64 - 1, by omega⟩ : U64) : Point Index).Valid := rfl
      have := (mem_closedRun.mp (hwithin _ hvalid ⟨_, hiv, hmem⟩)).2
      exact absurd (hlast hi) this
    | some r =>
      have hproper : (⟨some l, some r⟩ : Interval Index).Proper := by
        have := hs.proper _ hiv
        rwa [hs.finite _ hiv rfl rfl] at this
      have hordered := hproper.ordered l rfl r rfl
      obtain ⟨lo, a⟩ := l
      obtain ⟨ro, b⟩ := r
      rcases hordered with hlt | ⟨heq, hl, hr⟩
      · have hl : lo = false := by
          by_contra hopen
          have := Index.tryAdjacent_right_eq_none
            (Bound.adjacent_eq_none_of_normalized (hproper.left _ rfl) (by simpa using hopen))
          have := Index.lt_iff.mp hlt
          have := b.2
          omega
        have hr : ro = false := by
          by_contra hopen
          have := Index.tryAdjacent_left_eq_none
            (Bound.adjacent_eq_none_of_normalized (hproper.right _ rfl) (by simpa using hopen))
          have := Index.lt_iff.mp hlt
          omega
        subst hl hr
        exact ⟨a, b, rfl, (Index.lt_iff.mp hlt).le⟩
      · simp only at heq hl hr
        subst heq hl hr
        exact ⟨a, a, rfl, le_rfl⟩

/-- Runs in order are apart from each other's counters. -/
lemma Interval.Before.lt_of_closedRun {c d : Index} (h : (closedRun a b).Before (closedRun c d)) :
    b.1 < c.1 := by
  obtain ⟨_, ⟨⟩, _, ⟨⟩, hlt⟩ := h
  simpa [Index.lt_iff] using hlt

/-- The intervals of the set are closed runs of indices, in order. -/
structure IntervalSet.Runs (s : IntervalSet Index) : Prop where
  closed : ∀ iv ∈ s, ∃ a b : Index, iv = closedRun a b ∧ a.1 ≤ b.1
  before : s.Pairwise Interval.Before

namespace IntervalSet

lemma Valid.runs (hs : s.Valid)
    (hwithin : ∀ x : Point Index, x.Valid → s.Mem x → (closedRun lo hi).Mem x) : s.Runs := by
  refine ⟨fun iv hiv => hs.closed hwithin hiv, ?_⟩
  have hmap : s.map Interval.normalized = s := by
    refine (List.map_congr_left fun iv hiv => ?_).trans (List.map_id' s)
    obtain ⟨a, b, rfl, hab⟩ := hs.closed hwithin hiv
    exact (closedRun_proper hab).normalized_eq
  simpa [hmap] using hs.ascending

lemma Runs.tail (h : Runs (iv :: s)) : s.Runs :=
  ⟨fun iv hiv => h.closed iv (by simp [hiv]), (List.pairwise_cons.mp h.before).2⟩

/-- The indices of the later runs lie above the first one. -/
lemma Runs.lt_of_mem_tail (h : Runs (closedRun a b :: s)) (hi : s.Mem (.here i)) : b.1 < i.1 := by
  obtain ⟨iv, hiv, hmem⟩ := hi
  obtain ⟨c, d, rfl, -⟩ := h.closed iv (by simp [hiv])
  have hbc := ((List.pairwise_cons.mp h.before).1 _ hiv).lt_of_closedRun
  have hci := (mem_closedRun_here.mp hmem).1
  omega

/-- The first run starts at the least index of the set. -/
lemma Runs.le_of_mem (h : Runs (closedRun a b :: s)) (hi : Mem (closedRun a b :: s) (.here i)) :
    a.1 ≤ i.1 := by
  rcases mem_cons.mp hi with hhead | htail
  · exact (mem_closedRun_here.mp hhead).1
  · have hlt := h.lt_of_mem_tail htail
    obtain ⟨_, _, heq, hab⟩ := h.closed _ (List.mem_cons_self ..)
    cases heq
    omega

/-- In a set whose intervals do not touch, the index after the first run is missing. -/
lemma Runs.not_mem_succ (h : Runs (closedRun a b :: s))
    (hs : IntervalSet.Canonical (closedRun a b :: s)) (hi : i.1 = b.1 + 1) :
    ¬Mem (closedRun a b :: s) (.here i) := by
  intro hmem
  rcases mem_cons.mp hmem with hhead | ⟨iv, hiv, htail⟩
  · have := (mem_closedRun_here.mp hhead).2
    omega
  obtain ⟨c, d, rfl, -⟩ := h.closed iv (by simp [hiv])
  have hapart := (List.pairwise_cons.mp hs.apart).1 _ hiv
  have hbc := hapart.1.lt_of_closedRun
  have hci := (mem_closedRun_here.mp htail).1
  -- the later run would start at the neighbour of `b`
  obtain rfl : c = i := Fin.ext (show c.1 = i.1 by omega)
  have hadj : tryAdjacent .right b = some c := by
    have hlt : b.1 + 1 < 2 ^ 64 := hi ▸ c.2
    have hright : tryAdjacent .right b = some (⟨b.1 + 1, hlt⟩ : U64) := dif_pos hlt
    rw [hright]
    exact congrArg some (Fin.ext hi.symm)
  have hne : b ≠ c := fun heq => by
    rw [heq] at hbc
    exact lt_irrefl _ hbc
  have hmeets := hapart.2 ⟨false, b⟩ rfl ⟨false, c⟩ rfl
  simp [Bound.meets, hne, hadj] at hmeets

end IntervalSet

end Cambra
