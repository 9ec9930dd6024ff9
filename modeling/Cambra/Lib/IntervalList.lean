import Cambra.Lib.Interval

/-!
# Interval sets as ascending lists

A plain implementation of `IntervalOps` over any domain, by ascending lists of normalized intervals:
two sets intersect pairwise, the complement of a set is the intersection of the complements of its
intervals, and union and difference follow.  It shows that what `IntervalOps` assumes can be met.
-/

namespace Cambra

open List

variable {V : Type*} [Domain V]

open Domain

/-! ## Bounds and intervals -/

variable {x : Point V} {a b iv : Interval V}

namespace Bound

/-- The bound of the other side that leaves the other half. -/
def opposite (b : Bound V) : Bound V := ⟨!b.isOpen, b.value⟩

lemma holds_opposite_left {b : Bound V} : b.opposite.Holds .right x ↔ ¬b.Holds .left x := by
  rcases ho : b.isOpen with _ | _ <;> simp [opposite, Holds, ho]

lemma holds_opposite_right {b : Bound V} : b.opposite.Holds .left x ↔ ¬b.Holds .right x := by
  rcases ho : b.isOpen with _ | _ <;> simp [opposite, Holds, ho]

/-- The later of two left bounds. -/
def laterStart (a b : Bound V) : Bound V :=
  if a.value < b.value ∨ a.value = b.value ∧ b.isOpen = true then b else a

/-- The earlier of two right bounds. -/
def earlierEnd (a b : Bound V) : Bound V :=
  if b.value < a.value ∨ b.value = a.value ∧ b.isOpen = true then b else a

lemma holds_laterStart {a b : Bound V} :
    (laterStart a b).Holds .left x ↔ a.Holds .left x ∧ b.Holds .left x := by
  rw [laterStart]
  split_ifs with h
  · refine ⟨fun hb => ⟨hb.left_mono ?_, hb⟩, fun hab => hab.2⟩
    grind
  · refine ⟨fun ha => ⟨ha, ha.left_mono ?_⟩, fun hab => hab.1⟩
    grind

lemma holds_earlierEnd {a b : Bound V} :
    (earlierEnd a b).Holds .right x ↔ a.Holds .right x ∧ b.Holds .right x := by
  rw [earlierEnd]
  split_ifs with h
  · refine ⟨fun hb => ⟨hb.right_mono ?_, hb⟩, fun hab => hab.2⟩
    grind
  · refine ⟨fun ha => ⟨ha, ha.right_mono ?_⟩, fun hab => hab.1⟩
    grind

end Bound

namespace Interval

/-- The bounds of the intersection. -/
def meet (a b : Interval V) : Interval V :=
  ⟨a.left.merge Bound.laterStart b.left, a.right.merge Bound.earlierEnd b.right⟩

/-- The bounds leave something between them. -/
def isOrdered (iv : Interval V) : Bool := iv.left.all fun l => iv.right.all fun r =>
    l.value < r.value || l.value = r.value && !l.isOpen && !r.isOpen

lemma mem_meet : (meet a b).Mem x ↔ a.Mem x ∧ b.Mem x := by
  obtain ⟨_ | la, _ | ra⟩ := a <;> obtain ⟨_ | lb, _ | rb⟩ := b <;>
    simp [meet, Mem, Option.merge, Bound.holds_laterStart, Bound.holds_earlierEnd] <;> tauto

/-- Bounds that are not ordered leave nothing between them. -/
lemma isOrdered_of_mem (h : iv.Mem x) : iv.isOrdered = true := by
  by_contra hnot
  obtain ⟨_ | l, _ | r⟩ := iv
  · simp [isOrdered] at hnot
  · simp [isOrdered] at hnot
  · simp [isOrdered] at hnot
  · -- the end comes before the start, as for two intervals in order
    have hbefore : Before (⟨none, some r⟩ : Interval V) ⟨some l, none⟩ := by
      refine ⟨r, rfl, l, rfl, ?_⟩
      simp only [isOrdered, Option.all_some, Bool.or_eq_true, Bool.and_eq_true, decide_eq_true_eq,
        Bool.not_eq_true'] at hnot
      grind
    exact hbefore.not_holds h.2 h.1

lemma Proper.meet (ha : a.Proper) (hb : b.Proper) (h : (Interval.meet a b).isOrdered = true) :
    (Interval.meet a b).Proper := by
  obtain ⟨la, ra⟩ := a
  obtain ⟨lb, rb⟩ := b
  refine ⟨fun l hl => ?_, fun r hr => ?_, fun l hl r hr => ?_⟩
  · have hor : l ∈ la ∨ l ∈ lb := by
      cases la <;> cases lb <;> simp_all [Interval.meet, Option.merge, Bound.laterStart]
      split at hl <;> simp_all
    exact hor.elim (ha.left l) (hb.left l)
  · have hor : r ∈ ra ∨ r ∈ rb := by
      cases ra <;> cases rb <;> simp_all [Interval.meet, Option.merge, Bound.earlierEnd]
      split at hr <;> simp_all
    exact hor.elim (ha.right r) (hb.right r)
  · rw [Option.mem_def] at hl hr
    simpa [isOrdered, hl, hr, and_assoc] using h

variable {c d : Interval V}

/-- What lies within intervals in order is in order. -/
lemma Before.meet (h : a.Before c ∨ b.Before d) :
    (Interval.meet a b).Before (Interval.meet c d) := by
  have hend : ∀ (a b : Interval V) (r : Bound V), r ∈ a.right ∨ r ∈ b.right →
      ∃ r' ∈ (Interval.meet a b).right, r'.value < r.value ∨
        r'.value = r.value ∧ (r.isOpen = true → r'.isOpen = true) := by
    rintro ⟨la, _ | ra⟩ ⟨lb, _ | rb⟩ r hr <;>
      simp_all [Interval.meet, Option.merge, Bound.earlierEnd]
    grind
  have hstart : ∀ (a b : Interval V) (l : Bound V), l ∈ a.left ∨ l ∈ b.left →
      ∃ l' ∈ (Interval.meet a b).left, l.value < l'.value ∨
        l.value = l'.value ∧ (l.isOpen = true → l'.isOpen = true) := by
    rintro ⟨_ | la, ra⟩ ⟨_ | lb, rb⟩ l hl <;>
      simp_all [Interval.meet, Option.merge, Bound.laterStart]
    grind
  obtain ⟨r, hr, l, hl, hrl⟩ : ∃ r, (r ∈ a.right ∨ r ∈ b.right) ∧ ∃ l, (l ∈ c.left ∨ l ∈ d.left) ∧
      (r.value < l.value ∨ r.value = l.value ∧ (r.isOpen = true ∨ l.isOpen = true)) := by
    rcases h with ⟨r, hr, l, hl, hrl⟩ | ⟨r, hr, l, hl, hrl⟩
    · exact ⟨r, .inl hr, l, .inl hl, hrl⟩
    · exact ⟨r, .inr hr, l, .inr hl, hrl⟩
  obtain ⟨r', hr', hle⟩ := hend a b r hr
  obtain ⟨l', hl', hge⟩ := hstart c d l hl
  exact ⟨r', hr', l', hl', by grind⟩

/-- What lies within intervals with a gap between them has a gap between it. -/
lemma Apart.meet (h : a.Apart c ∨ b.Apart d) : (Interval.meet a b).Apart (Interval.meet c d) := by
  refine ⟨Before.meet (h.imp And.left And.left), fun r hr l hl => ?_⟩
  have hright : ∀ x : Point V, r.Holds .right x → (∀ r' ∈ a.right, r'.Holds .right x) ∧
      ∀ r' ∈ b.right, r'.Holds .right x := by
    intro x hx
    have hmem : (Interval.meet ⟨none, a.right⟩ ⟨none, b.right⟩).Mem x :=
      ⟨by simp [Interval.meet], fun r' hr' => Option.mem_unique hr hr' ▸ hx⟩
    exact (mem_meet.mp hmem).imp And.right And.right
  have hleft : ∀ x : Point V, l.Holds .left x → (∀ l' ∈ c.left, l'.Holds .left x) ∧
      ∀ l' ∈ d.left, l'.Holds .left x := by
    intro x hx
    have hmem : (Interval.meet ⟨c.left, none⟩ ⟨d.left, none⟩).Mem x :=
      ⟨fun l' hl' => Option.mem_unique hl hl' ▸ hx, by simp [Interval.meet]⟩
    exact (mem_meet.mp hmem).imp And.left And.left
  -- the point after the earlier interval is in neither part
  obtain ⟨x, hx, hnotr, hnotl⟩ : ∃ x : Point V, x.Valid ∧ ¬r.Holds .right x ∧ ¬l.Holds .left x := by
    rcases h with ⟨⟨r', hr', l', hl', hrl⟩, hmeets⟩ | ⟨⟨r', hr', l', hl', hrl⟩, hmeets⟩
    · exact ⟨r'.pointAfter, r'.pointAfter_valid,
        fun hx => r'.not_holds_pointAfter ((hright _ hx).1 r' hr'),
        fun hx => Bound.not_holds_pointAfter_of_not_meets hrl (hmeets r' hr' l' hl')
          ((hleft _ hx).1 l' hl')⟩
    · exact ⟨r'.pointAfter, r'.pointAfter_valid,
        fun hx => r'.not_holds_pointAfter ((hright _ hx).2 r' hr'),
        fun hx => Bound.not_holds_pointAfter_of_not_meets hrl (hmeets r' hr' l' hl')
          ((hleft _ hx).2 l' hl')⟩
  by_contra hmeets
  exact hnotl (Bound.holds_left_of_meets (by simpa using hmeets) hx hnotr)

/-- What an interval leaves out, below and above it. -/
def outside (iv : Interval V) : List (Interval V) :=
  (iv.left.toList.map fun l => ⟨none, some (l.opposite.normalized .right)⟩) ++
    iv.right.toList.map fun r => ⟨some (r.opposite.normalized .left), none⟩

lemma mem_outside (hx : x.Valid) : (∃ piece ∈ iv.outside, piece.Mem x) ↔ ¬iv.Mem x := by
  obtain ⟨_ | l, _ | r⟩ := iv <;>
    simp [outside, Mem, Bound.holds_normalized hx, Bound.holds_opposite_left,
      Bound.holds_opposite_right]
  tauto

lemma outside_proper {piece : Interval V} (h : piece ∈ iv.outside) : piece.Proper := by
  obtain ⟨_ | l, _ | r⟩ := iv <;> simp only [outside, Option.toList_none, Option.toList_some,
    map_nil, map_cons, nil_append, append_nil, List.mem_cons, List.not_mem_nil,
    or_false, singleton_append] at h
  · subst h
    exact ⟨by simpa using Bound.normalized_normalized _ _, by simp, by simp⟩
  · subst h
    exact ⟨by simp, by simpa using Bound.normalized_normalized _ _, by simp⟩
  · rcases h with rfl | rfl
    · exact ⟨by simp, by simpa using Bound.normalized_normalized _ _, by simp⟩
    · exact ⟨by simpa using Bound.normalized_normalized _ _, by simp, by simp⟩

lemma Proper.outside_ascending (h : iv.Proper) : iv.outside.Pairwise Before := by
  obtain ⟨_ | l, _ | r⟩ := iv <;> simp [outside]
  have hlr := h.ordered l rfl r rfl
  refine ⟨_, rfl, _, rfl, ?_⟩
  have hleft : ∀ w, tryAdjacent .left l.value = some w → w < l.value := fun w hw =>
    (covBy_of_adjacent (adjacent_left_iff.mp hw)).1
  have hright : ∀ w, tryAdjacent .right r.value = some w → r.value < w := fun w hw =>
    (covBy_of_adjacent hw).1
  rcases hlo : l.isOpen with _ | _ <;> rcases hro : r.isOpen with _ | _ <;>
    rcases hl : tryAdjacent .left l.value with _ | wl <;>
    rcases hr : tryAdjacent .right r.value with _ | wr <;>
    simp only [Bound.opposite, Bound.normalized, hlo, hro, hl, hr, Side.flip_right, Side.flip_left,
      Bool.not_true, Bool.not_false, if_true, if_false, Bool.false_eq_true] <;>
    grind

end Interval

/-! ## Ascending lists -/

namespace IntervalSet

variable {s : IntervalSet V}

lemma Valid.map_normalized (h : s.Valid) : IntervalSet.Ascending (s.map Interval.normalized) :=
  ⟨by simpa using h.proper, h.ascending⟩

/-- The intersections of the intervals of `a` with those of `b`. -/
def inter (a b : IntervalSet V) : IntervalSet V :=
  a.flatMap fun x => (b.map (Interval.meet x)).filter Interval.isOrdered

lemma mem_inter {a b : IntervalSet V} : Mem (inter a b) x ↔ a.Mem x ∧ b.Mem x := by
  constructor
  · rintro ⟨iv, hiv, hx⟩
    obtain ⟨p, hp, hiv⟩ := mem_flatMap.mp hiv
    obtain ⟨q, hq, rfl⟩ := mem_map.mp (mem_filter.mp hiv).1
    rw [Interval.mem_meet] at hx
    exact ⟨⟨p, hp, hx.1⟩, ⟨q, hq, hx.2⟩⟩
  · rintro ⟨⟨p, hp, hpx⟩, ⟨q, hq, hqx⟩⟩
    have hx := Interval.mem_meet.mpr ⟨hpx, hqx⟩
    refine ⟨_, mem_flatMap.mpr ⟨p, hp, mem_filter.mpr ⟨mem_map_of_mem hq, ?_⟩⟩, hx⟩
    exact Interval.isOrdered_of_mem hx

/-- An order of intervals that intersecting either one keeps holds between the intersections. -/
lemma pairwise_inter {R : Interval V → Interval V → Prop} {a b : IntervalSet V}
    (hmeet : ∀ {p q p' q' : Interval V}, R p p' ∨ R q q' → R (p.meet q) (p'.meet q'))
    (ha : a.Pairwise R) (hb : b.Pairwise R) : (inter a b).Pairwise R := by
  refine pairwise_flatMap.mpr ⟨fun p _ => ?_, ha.imp fun hpp x hx y hy => ?_⟩
  · exact (pairwise_map.mpr (hb.imp fun hqq => hmeet (.inr hqq))).filter _
  · obtain ⟨q, _, rfl⟩ := mem_map.mp (mem_filter.mp hx).1
    obtain ⟨q', _, rfl⟩ := mem_map.mp (mem_filter.mp hy).1
    exact hmeet (.inl hpp)

lemma Ascending.inter {a b : IntervalSet V} (ha : a.Ascending) (hb : b.Ascending) :
    (IntervalSet.inter a b).Ascending := by
  refine ⟨fun iv hiv => ?_, pairwise_inter Interval.Before.meet ha.before hb.before⟩
  obtain ⟨p, hp, hiv⟩ := mem_flatMap.mp hiv
  obtain ⟨hmap, hordered⟩ := mem_filter.mp hiv
  obtain ⟨q, hq, rfl⟩ := mem_map.mp hmap
  exact (ha.proper p hp).meet (hb.proper q hq) hordered

lemma Canonical.inter {a b : IntervalSet V} (ha : a.Canonical) (hb : b.Canonical) :
    (IntervalSet.inter a b).Canonical :=
  ⟨(ha.ascending.inter hb.ascending).proper, pairwise_inter Interval.Apart.meet ha.apart hb.apart⟩

/-- What none of the intervals holds. -/
def compl (s : IntervalSet V) : IntervalSet V :=
  s.foldr (fun iv rest => inter iv.outside rest) [⟨none, none⟩]

lemma mem_compl (hx : x.Valid) : Mem (compl s) x ↔ ¬s.Mem x := by
  induction s with
  | nil => simp [compl, Interval.Mem]
  | cons iv s ih =>
    have hstep : compl (iv :: s) = inter iv.outside (compl s) := rfl
    rw [hstep, mem_inter, ih, mem_cons, not_or]
    exact and_congr_left fun _ => Interval.mem_outside hx

lemma Ascending.compl (h : s.Ascending) : (IntervalSet.compl s).Ascending := by
  obtain ⟨hproper, -⟩ := h
  induction s with
  | nil => exact ⟨by simpa [IntervalSet.compl] using ⟨by simp, by simp, by simp⟩, by
      simp [IntervalSet.compl]⟩
  | cons iv s ih =>
    have houtside : IntervalSet.Ascending iv.outside :=
      ⟨fun _ hpiece => Interval.outside_proper hpiece, (hproper iv (by simp)).outside_ascending⟩
    exact houtside.inter (ih fun p hp => hproper p (by simp [hp]))

end IntervalSet

/-! ## The implementation -/

/-- `a` starts where `b` does or earlier. -/
def Interval.startsFirst (a b : Interval V) : Bool := a.left.all fun la => b.left.any fun lb =>
    la.value < lb.value || la.value = lb.value && (!la.isOpen || lb.isOpen)

lemma Interval.startsFirst_iff : a.startsFirst b = true ↔ a.StartLe b := by
  obtain ⟨_ | la, ra⟩ := a <;> obtain ⟨_ | lb, rb⟩ := b <;> simp [startsFirst, StartLe]
  grind

/-- **Ascending lists implement the interval-set operations.** -/
instance IntervalList.ops : IntervalOps V where
  union a b := .compl (.inter (.compl a) (.compl b))
  intersection a b := .inter (a.map Interval.normalized) (b.map Interval.normalized)
  difference a b := .inter a (.compl b)
  complement a := .compl a
  new ivs := .compl (ivs.foldr (fun iv rest => .inter (.compl [iv]) rest) [⟨none, none⟩])
  lt := Interval.startsFirst
  union_valid ha hb := (ha.ascending.compl.inter hb.ascending.compl).compl.valid
  intersection_valid ha hb := (ha.map_normalized.inter hb.map_normalized).valid
  difference_valid ha hb := (ha.ascending.inter hb.ascending.compl).valid
  complement_valid ha := ha.ascending.compl.valid
  mem_union _ _ _ hx := by
    rw [IntervalSet.mem_compl hx, IntervalSet.mem_inter, IntervalSet.mem_compl hx,
      IntervalSet.mem_compl hx]
    tauto
  mem_intersection _ _ _ hx := by
    rw [IntervalSet.mem_inter, IntervalSet.mem_map_normalized hx, IntervalSet.mem_map_normalized hx]
  mem_difference _ _ _ hx := by rw [IntervalSet.mem_inter, IntervalSet.mem_compl hx]
  mem_complement _ _ hx := IntervalSet.mem_compl hx
  startLe_of_lt _ _ h := Interval.startsFirst_iff.mp h
  startLe_of_not_lt {a b} _ _ h := by
    have hnot : ¬a.StartLe b := by
      rw [← Interval.startsFirst_iff, h]
      simp
    obtain ⟨_ | la, ra⟩ := a <;> obtain ⟨_ | lb, rb⟩ := b <;> simp [Interval.StartLe] at hnot ⊢
    grind

/-- What one interval of a valid set leaves out ascends. -/
lemma IntervalSet.Valid.outside_ascending (h : IntervalSet.Valid [iv]) :
    IntervalSet.Ascending iv.outside := by
  refine ⟨fun _ hpiece => Interval.outside_proper hpiece, ?_⟩
  by_cases hfinite : iv.left.isSome ∧ iv.right.isSome
  · have hnorm := h.finite iv (by simp) hfinite.1 hfinite.2
    have hproper := h.proper iv (by simp)
    rw [hnorm] at hproper
    exact hproper.outside_ascending
  · -- an interval without one of its ends leaves out one piece at most
    obtain ⟨_ | l, _ | r⟩ := iv <;> simp_all [Interval.outside]

instance IntervalList.lawfulNew : IntervalOps.LawfulNew V where
  new_valid h := by
    have htop : IntervalSet.Ascending [(⟨none, none⟩ : Interval V)] :=
      ⟨by simpa using ⟨by simp, by simp, by simp⟩, by simp⟩
    exact ((h.outside_ascending.inter htop).inter htop).compl.valid
  mem_new _ _ hx := by
    change IntervalSet.Mem (.compl (.inter (.compl [_]) [⟨none, none⟩])) _ ↔ _
    rw [IntervalSet.mem_compl hx, IntervalSet.mem_inter, IntervalSet.mem_compl hx]
    simp [Interval.Mem]

/-- Intersecting sets whose intervals do not touch leaves no two that do. -/
lemma IntervalList.intersection_canonical {a b : IntervalSet V} (ha : a.Canonical)
    (hb : b.Canonical) : (IntervalList.ops.intersection a b).Canonical := by
  have hmap : ∀ {s : IntervalSet V}, s.Canonical → s.map Interval.normalized = s := fun hs =>
    (map_congr_left fun iv hiv => (hs.proper iv hiv).normalized_eq).trans (map_id' _)
  change (IntervalSet.inter (a.map Interval.normalized) (b.map Interval.normalized)).Canonical
  rw [hmap ha, hmap hb]
  exact ha.inter hb

end Cambra
