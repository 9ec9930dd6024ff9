import Cambra.Lib.Interval

/-!
# Interval sets: canonical form, membership and containment

The functions of `interval_sets.rs` (`holds`, `has_difference` and its helpers) and the ones of
`predicate.rs` that put a set in canonical form (`canonical_runs`, `normalize_and_join`,
`joined`), over any `Domain` and any interval-set implementation (`IntervalOps`).

`canonicalRuns` and `normalizeAndJoin` carry the source's debug assertions: a failed one is
`none`.

## Main results

* `canonicalRuns_spec`: a valid set has a canonical form, of the same points; no assertion fails.
* `holds_iff`: the binary search of `holds` answers membership.
* `hasDifference_iff`: `has_difference` answers containment exactly, on the line of the domain.
-/

namespace Cambra

open Domain List

variable {V : Type*} [Domain V]

/-! ## Definitions -/

/-- The index a binary search by `p` stops at, over a list `p` partitions. -/
def partitionPoint {α : Type*} (p : α → Bool) (xs : List α) : ℕ := (xs.takeWhile p).length

/-- `set` holds `value`: the first interval that does not end below it is asked. -/
def holds (set : IntervalSet V) (value : V) : Bool :=
  let at_ := partitionPoint (fun y => y.right.any fun stop => !stop.contains .right value) set
  set[at_]?.any (·.contains value)

/-- `y` starts at or before the least value of `x`. -/
def startsAtOrBefore (y x : Interval V) : Bool :=
  match y.left, x.left with
  | none, _ => true
  | some _, none => false
  | some by_, some bx =>
    let by_ := by_.normalized .left
    let bx := bx.normalized .left
    match by_.isOpen with
    | false => by_.value ≤ bx.value
    | true => by_.value < bx.value ∨ (by_.value = bx.value ∧ bx.isOpen)

/-- `y` ends at or after the greatest value of `x`. -/
def endsAtOrAfter (y x : Interval V) : Bool :=
  match y.right, x.right with
  | none, _ => true
  | some _, none => false
  | some by_, some bx =>
    let by_ := by_.normalized .right
    let bx := bx.normalized .right
    match by_.isOpen with
    | false => bx.value ≤ by_.value
    | true => bx.value < by_.value ∨ (bx.value = by_.value ∧ bx.isOpen)

/-- No value lies between the right end of `y` and the left end of `z`, where `z` follows `y`. -/
def touches (y z : Interval V) : Bool :=
  match y.right, z.left with
  | some stop, some start =>
    let stop := stop.normalized .right
    let start := start.normalized .left
    match stop.isOpen, start.isOpen with
    | false, false => start.value ≤ stop.value ||
        (tryAdjacent .right stop.value).any fun next => start.value ≤ next
    | true, true => start.value < stop.value
    | _, _ => start.value ≤ stop.value
  | _, _ => false

/-- The run of touching intervals from the head of the list reaches the end of `x`. -/
def runReaches (x : Interval V) : List (Interval V) → Bool
  | [] => false
  | y :: rest =>
    endsAtOrAfter y x ||
      match rest with
      | next :: _ => touches y next && runReaches x rest
      | [] => false

/-- The run of touching intervals that starts at the head of `run` holds every value of `x`. -/
def runCovers (x : Interval V) (run : List (Interval V)) : Bool :=
  run.head?.any (startsAtOrBefore · x) && runReaches x run

/-- Each interval ends at or after the end of the one before it. -/
def rightEndsAscend : List (Interval V) → Bool
  | a :: b :: rest => endsAtOrAfter b a && rightEndsAscend (b :: rest)
  | _ => true

/-- A finite interval from its bounds, normalized when it is built. -/
def Interval.newFinite (left right : Bound V) : Interval V :=
  ⟨some (left.normalized .left), some (right.normalized .right)⟩

lemma Interval.newFinite_closed_proper {l r : V} (h : l ≤ r) :
    (Interval.newFinite ⟨false, l⟩ ⟨false, r⟩).Proper := by
  constructor <;> simp [newFinite, Bound.normalized, h.lt_or_eq]

lemma Interval.mem_newFinite_closed {l r x : V} :
    (Interval.newFinite ⟨false, l⟩ ⟨false, r⟩).Mem (.here x) ↔ l ≤ x ∧ x ≤ r := by
  simp [newFinite, Bound.normalized, Mem, Bound.Holds, Point.Lt, Point.Gt]

/-- `a` and `b` as one interval where they meet with no gap. -/
def joined (a b : Interval V) : Option (Interval V) :=
  match a.right, b.left with
  | some stop, some start =>
    if stop.meets start then
      match a.left, b.right with
      | some left, some right => some (Interval.newFinite left right)
      | left, right => some ⟨left, right⟩
    else none
  | _, _ => none

/-- An interval with its bounds normalized.  The implementation normalizes finite ones itself,
which the source asserts. -/
def normalizeNext (next : Interval V) : Option (Interval V) :=
  match next.left, next.right with
  | some left, none => some ⟨some (left.normalized .left), none⟩
  | none, some right => some ⟨none, some (right.normalized .right)⟩
  | some left, some right =>
    if left = left.normalized .left ∧ right = right.normalized .right then some next else none
  | none, none => some next

section Ops

variable [IntervalOps V]

/-- The union of `covering` holds every value of `x`.  (A set keeps no empty interval, so the
source's test for an empty `x` has nothing to answer.) -/
def covered (x : Interval V) (covering : List (Interval V)) : Bool :=
  let at_ := partitionPoint (fun y => IntervalOps.lt y x) covering
  (0 < at_ && runCovers x (covering.drop (at_ - 1))) ||
    (at_ < covering.length && runCovers x (covering.drop at_))

/-- `self ∖ rhs` is not empty. -/
def hasDifference (self rhs : IntervalSet V) : Bool := self.any fun x => !covered x rhs

/-- One round of `normalize_and_join`: the intervals merged so far, newest first, and whether
they are in order. -/
def joinNext (state : List (Interval V) × Bool) (next : Interval V) :
    Option (List (Interval V) × Bool) :=
  (normalizeNext next).map fun next =>
    match state.1 with
    | [] => ([next], state.2)
    | prev :: rest =>
      match joined prev next with
      | some one => (one :: rest, state.2)
      | none => (next :: prev :: rest, state.2 && IntervalOps.lt prev next)

/-- The intervals of `set` normalized and joined where they meet, and whether the result is
sorted and disjoint. -/
def normalizeAndJoin (set : IntervalSet V) : Option (List (Interval V) × Bool) :=
  (set.foldlM joinNext ([], true)).map fun state => (state.1.reverse, state.2)

/-- `set` with each bound normalized and the intervals that meet merged. -/
def canonicalRuns (set : IntervalSet V) : Option (IntervalSet V) := do
  let (merged, ordered) ← normalizeAndJoin set
  let merged ←
    if ordered then some merged
    else do
      let (merged, ordered) ← normalizeAndJoin (IntervalOps.new merged)
      if ordered then some merged else none
  if rightEndsAscend merged then some merged else none

end Ops

/-! ## Comparing the ends of proper intervals -/

variable {x y a b : Interval V} {p : Point V} {s : IntervalSet V} {l r : Bound V}

lemma startsAtOrBefore_iff (hy : y.Proper) (hx : x.Proper) :
    startsAtOrBefore y x = true ↔ y.StartLe x := by
  obtain ⟨yl, yr⟩ := y
  obtain ⟨xl, xr⟩ := x
  cases yl with
  | none => simp [startsAtOrBefore, Interval.StartLe]
  | some by_ =>
    cases xl with
    | none => simp [startsAtOrBefore, Interval.StartLe]
    | some bx =>
      rcases ho : by_.isOpen with _ | _ <;>
        simp [startsAtOrBefore, Interval.StartLe, hy.left by_ rfl, hx.left bx rfl, ho,
          le_iff_lt_or_eq]

/-- An interval that ends no earlier than `x` leaves out nothing `x` holds at its end. -/
lemma holds_right_of_endsAtOrAfter (hy : y.Proper) (hx : x.Proper) (h : endsAtOrAfter y x = true)
    (hp : ∀ r ∈ x.right, r.Holds .right p) : ∀ r ∈ y.right, r.Holds .right p := by
  obtain ⟨yl, yr⟩ := y
  obtain ⟨xl, xr⟩ := x
  rintro r hr
  obtain rfl : yr = some r := hr
  cases xr with
  | none => cases h
  | some bx =>
    have hbx := hp bx rfl
    simp only [endsAtOrAfter, hy.right r rfl, hx.right bx rfl] at h
    rcases ho : r.isOpen with _ | _ <;> rcases ho' : bx.isOpen with _ | _ <;>
      simp [ho, ho', Bound.Holds] at h hbx ⊢
    · exact fun hgt => hbx (hgt.mono h)
    · exact fun hgt => absurd (hgt.lt_of_lt hbx) (not_lt.mpr h)
    · by_contra hlt
      exact absurd (Point.le_of_not_lt_of_not_gt hlt hbx) (not_le.mpr h)
    · exact hbx.mono (h.elim le_of_lt le_of_eq)

/-- An interval that ends earlier than `x` has an end, and the first point past it is not past
the end of `x`. -/
lemma holds_pointAfter_of_not_endsAtOrAfter (hy : y.Proper) (hx : x.Proper)
    (h : endsAtOrAfter y x = false) :
    ∃ r ∈ y.right, ∀ bx ∈ x.right, bx.Holds .right r.pointAfter := by
  obtain ⟨yl, yr⟩ := y
  obtain ⟨xl, xr⟩ := x
  cases yr with
  | none => cases h
  | some r =>
    refine ⟨r, rfl, fun bx hbx => ?_⟩
    obtain rfl : xr = some bx := hbx
    simp only [endsAtOrAfter, hy.right r rfl, hx.right bx rfl] at h
    rcases ho : r.isOpen with _ | _
    · have hlt : r.value < bx.value := by simpa [ho] using h
      cases hadj : tryAdjacent .right r.value with
      | none => rcases ho' : bx.isOpen with _ | _ <;>
          simp [Bound.Holds, Bound.pointAfter, ho, ho', hadj, Point.Lt, Point.Gt, hlt]
      | some w =>
        have hw := (covBy_of_adjacent hadj).ge_of_gt hlt
        rcases ho' : bx.isOpen with _ | _
        · simpa [Bound.Holds, Bound.pointAfter, ho, ho', hadj, Point.Gt] using hw
        · -- an open end that is normalized names no neighbour, so it is not `w`
          have hnone := Bound.adjacent_eq_none_of_normalized (hx.right bx rfl) ho'
          have hne : w ≠ bx.value := by
            rintro rfl
            simp [adjacent_left_iff.mpr hadj] at hnone
          simpa [Bound.Holds, Bound.pointAfter, ho, ho', hadj, Point.Lt] using lt_of_le_of_ne hw hne
    · rcases ho' : bx.isOpen with _ | _
      · have hle : r.value ≤ bx.value := by simpa [ho, ho'] using h
        simpa [Bound.Holds, Bound.pointAfter, ho, ho', Point.Gt] using hle
      · have hlt : r.value < bx.value := by
          simp only [ho, ho', and_true, decide_eq_false_iff_not, not_or, not_lt] at h
          exact lt_of_le_of_ne h.1 (Ne.symm h.2)
        simpa [Bound.Holds, Bound.pointAfter, ho, ho', Point.Lt] using hlt

lemma not_touches_of_apart {z : Interval V} (hy : y.Proper) (hz : z.Proper) (h : y.Apart z) :
    touches y z = false := by
  obtain ⟨r, hr, l, hl, hrl⟩ := h.1
  have hm := h.2 r hr l hl
  simp only [touches, Option.mem_def.mp hr, Option.mem_def.mp hl, hy.right r hr, hz.left l hl]
  by_cases hv : r.value = l.value
  · simp only [Bound.meets, hv, if_true, Bool.not_eq_false', Bool.and_eq_true] at hm
    simp [hm.1, hm.2, hv]
  have hlt : r.value < l.value := by grind
  rcases ho : r.isOpen with _ | _ <;> rcases ho' : l.isOpen with _ | _
  · cases hadj : tryAdjacent .right r.value with
    | none => simp [hlt]
    | some w =>
      have hne : w ≠ l.value := by simpa [Bound.meets, hv, ho, ho', hadj] using hm
      have hw := (covBy_of_adjacent hadj).ge_of_gt hlt
      simp only [Option.any_some, Bool.or_eq_false_iff, decide_eq_false_iff_not, not_le]
      exact ⟨hlt, lt_of_le_of_ne hw hne⟩
  · simp [hlt]
  · simp [hlt]
  · simp [hlt.le]

/-! ## Membership -/

lemma holds_iff (hs : s.Canonical) (v : V) : holds s v = true ↔ s.Mem (.here v) := by
  have hpast : ∀ y : Interval V, (y.right.any fun stop => !stop.contains .right v) = true ↔
      ¬∀ r ∈ y.right, r.Holds .right (.here v) := by
    intro y
    cases y.right <;> simp [← Bound.contains_iff]
  constructor
  · intro h
    simp only [holds, Option.any_eq_true] at h
    obtain ⟨y, hy, hyv⟩ := h
    exact ⟨y, mem_of_getElem? hy, (Interval.contains_iff y v).mp hyv⟩
  · rintro ⟨z, hz, hzv⟩
    obtain ⟨earlier, later, rfl⟩ := append_of_mem hz
    -- every interval before `z` ends below `v`, and `z` does not
    have hearlier : ∀ y ∈ earlier, (y.right.any fun stop => !stop.contains .right v) = true := by
      intro y hy
      have hyz := (pairwise_append.mp hs.apart).2.2 y hy z (by simp)
      exact (hpast y).mpr fun hr => hyz.1.not_holds hr hzv.1
    have hstop : (z.right.any fun stop => !stop.contains .right v) = false := by
      rw [← Bool.not_eq_true, hpast z, not_not]
      exact hzv.2
    simp only [holds, partitionPoint, takeWhile_append_of_pos hearlier, takeWhile_cons, hstop]
    simpa using (Interval.contains_iff z v).mpr hzv

/-! ## Containment -/

lemma runReaches_cons {rest : List (Interval V)} (h : IntervalSet.Canonical (y :: rest)) :
    runReaches x (y :: rest) = endsAtOrAfter y x := by
  cases rest with
  | nil => simp [runReaches]
  | cons z rest =>
    have hyz := rel_of_pairwise_cons h.apart mem_cons_self
    simp [runReaches, not_touches_of_apart (h.proper y (by simp)) (h.proper z (by simp)) hyz]

lemma IntervalSet.Canonical.drop (h : s.Canonical) (n : ℕ) :
    IntervalSet.Canonical (List.drop n s) :=
  ⟨fun iv hiv => h.proper iv (mem_of_mem_drop hiv), h.apart.sublist (drop_sublist n s)⟩

/-- A run that covers `x` holds each of its points. -/
lemma mem_of_runCovers {run : IntervalSet V} (hx : x.Proper) (hrun : run.Canonical)
    (h : runCovers x run = true) (hl : x.left.isSome) (hp : x.Mem p) : run.Mem p := by
  obtain ⟨l, hl⟩ := Option.isSome_iff_exists.mp hl
  cases run with
  | nil => cases h
  | cons y rest =>
    simp only [runCovers, head?_cons, Option.any_some, Bool.and_eq_true, runReaches_cons hrun] at h
    have hy := hrun.proper y (by simp)
    have hstart := (Interval.startLe_iff hl).mp ((startsAtOrBefore_iff hy hx).mp h.1)
    refine ⟨y, by simp, fun l' hl' => ?_, holds_right_of_endsAtOrAfter hy hx h.2 hp.2⟩
    exact (Bound.leastPoint_le (hp.1 l hl)).holds_left (hstart l' hl')

section Ops

variable [IntervalOps V]

/-- Where one interval of the set holds all of `x`, the search finds it. -/
lemma covered_of_mem (hx : x.Proper) (hs : s.Canonical) (hy : y ∈ s) (hl : l ∈ x.left)
    (hmem : y.Mem l.leastPoint) (hend : endsAtOrAfter y x = true) : covered x s = true := by
  obtain ⟨earlier, later, rfl⟩ := append_of_mem hy
  have hyp := hs.proper y hy
  have hpair := pairwise_append.mp hs.apart
  have hearlier : ∀ z ∈ earlier, IntervalOps.lt z x = true := by
    intro z hz
    have hzp := hs.proper z (by simp [hz])
    have hzy := (hpair.2.2 z hz y (by simp)).1
    rcases hlt : IntervalOps.lt z x with _ | _
    · -- `x` would start no later than `z`, which ends before `y` holds the start of `x`
      obtain ⟨lz, hlz, _⟩ := IntervalOps.startLe_of_not_lt hzp hx hlt l hl
      have hle := (Interval.startLe_iff hlz).mp (IntervalOps.startLe_of_not_lt hzp hx hlt) l hl
      exact absurd hmem.1 (hzy.not_holds fun r hr =>
        (Bound.leastPoint_le hle).holds_right ((hzp.mem_leastPoint hlz).2 r hr))
    · rfl
  have hlater : ∀ z ∈ later, IntervalOps.lt z x = false := by
    intro z hz
    have hzp := hs.proper z (by simp [hz])
    have hyz := (rel_of_pairwise_cons hpair.2.1 hz).1
    rcases hlt : IntervalOps.lt z x with _ | _
    · rfl
    · have hle := (Interval.startLe_iff hl).mp (IntervalOps.startLe_of_lt hzp hx hlt)
      exact absurd hle (hyz.not_holds hmem.2)
  have hrun : runCovers x (y :: later) = true := by
    have hcanon : IntervalSet.Canonical (y :: later) := by simpa using hs.drop earlier.length
    have hstart := (startsAtOrBefore_iff hyp hx).mpr ((Interval.startLe_iff hl).mpr hmem.1)
    simp [runCovers, hstart, runReaches_cons hcanon, hend]
  have htake : later.takeWhile (fun z => IntervalOps.lt z x) = [] := by
    cases later with
    | nil => rfl
    | cons z rest => simp [hlater z (by simp)]
  have hat : partitionPoint (fun z => IntervalOps.lt z x) (earlier ++ y :: later) =
      earlier.length + if IntervalOps.lt y x then 1 else 0 := by
    rw [partitionPoint, takeWhile_append_of_pos hearlier, takeWhile_cons, htake]
    split <;> simp
  simp only [covered, hat]
  split <;> simp [hrun]

/-- **`covered` is exact**: `x` is covered when every point of it is in the set. -/
lemma covered_iff (hx : x.Proper) (hl : x.left.isSome) (hs : s.Canonical) :
    covered x s = true ↔ ∀ p : Point V, p.Valid → x.Mem p → s.Mem p := by
  constructor
  · intro h p _ hp
    have hdrop : ∀ n, runCovers x (List.drop n s) = true → s.Mem p := by
      intro n hn
      obtain ⟨y, hy, hyp⟩ := mem_of_runCovers hx (hs.drop n) hn hl hp
      exact ⟨y, mem_of_mem_drop hy, hyp⟩
    simp only [covered, Bool.or_eq_true, Bool.and_eq_true] at h
    rcases h with ⟨_, h⟩ | ⟨_, h⟩
    · exact hdrop _ h
    · exact hdrop _ h
  · intro h
    obtain ⟨l, hl⟩ := Option.isSome_iff_exists.mp hl
    have hvalid := Bound.leastPoint_valid (hx.left l hl)
    obtain ⟨y, hy, hmem⟩ := h _ hvalid (hx.mem_leastPoint hl)
    have hyp := hs.proper y hy
    refine covered_of_mem hx hs hy hl hmem ?_
    rcases hend : endsAtOrAfter y x with _ | _
    · -- the first point past `y` is in `x`, and no interval of the set holds it
      obtain ⟨r, hr, hrx⟩ := holds_pointAfter_of_not_endsAtOrAfter hyp hx hend
      have hle := Bound.le_pointAfter hvalid (hmem.2 r hr)
      have hxr : x.Mem r.pointAfter :=
        ⟨fun l' hl' => Option.mem_unique hl hl' ▸ hle.holds_left l.holds_leastPoint, hrx⟩
      obtain ⟨z, hz, hzr⟩ := h _ r.pointAfter_valid hxr
      obtain ⟨earlier, later, rfl⟩ := append_of_mem hy
      have hpair := pairwise_append.mp hs.apart
      simp only [mem_append, List.mem_cons] at hz
      rcases hz with hz | rfl | hz
      · exact absurd hmem.1 ((hpair.2.2 z hz y (by simp)).1.not_holds
          fun r' hr' => hle.holds_right (hzr.2 r' hr'))
      · exact absurd (hzr.2 r hr) r.not_holds_pointAfter
      · exact absurd hzr ((rel_of_pairwise_cons hpair.2.1 hz).not_mem_pointAfter hr)
    · rfl

/-- **`has_difference` is exact**, for sets whose intervals all start somewhere. -/
theorem hasDifference_iff {a b : IntervalSet V} (ha : a.Canonical)
    (hal : ∀ iv ∈ a, iv.left.isSome) (hb : b.Canonical) :
    hasDifference a b = false ↔ ∀ p : Point V, p.Valid → a.Mem p → b.Mem p := by
  simp only [hasDifference, any_eq_false, Bool.not_eq_true', Bool.not_eq_false]
  constructor
  · rintro h p hp ⟨x, hx, hxp⟩
    exact (covered_iff (ha.proper x hx) (hal x hx) hb).mp (h x hx) p hp hxp
  · intro h x hx
    exact (covered_iff (ha.proper x hx) (hal x hx) hb).mpr fun p hp hxp => h p hp ⟨x, hx, hxp⟩

end Ops

/-! ## Canonical form -/

lemma joined_eq (ha : a.Proper) (hb : b.Proper) (hr : r ∈ a.right) (hl : l ∈ b.left) :
    joined a b = if r.meets l then some ⟨a.left, b.right⟩ else none := by
  obtain ⟨al, ar⟩ := a
  obtain ⟨bl, br⟩ := b
  obtain rfl : ar = some r := hr
  obtain rfl : bl = some l := hl
  have hal := ha.left
  have hbr := hb.right
  cases al <;> cases br <;> simp_all [joined, Interval.newFinite]

/-- Joining two intervals that meet gives one of just their points. -/
lemma mem_joined_iff (ha : a.Proper) (hb : b.Proper) (hr : r ∈ a.right) (hl : l ∈ b.left)
    (hrl : r.value < l.value ∨ r.value = l.value ∧ (r.isOpen = true ∨ l.isOpen = true))
    (hmeets : r.meets l = true) (hp : p.Valid) :
    Interval.Mem ⟨a.left, b.right⟩ p ↔ a.Mem p ∨ b.Mem p := by
  constructor
  · rintro ⟨hleft, hright⟩
    by_cases hpr : r.Holds .right p
    · exact .inl ⟨hleft, fun r' hr' => Option.mem_unique hr hr' ▸ hpr⟩
    · have hpl := Bound.holds_left_of_meets hmeets hp hpr
      exact .inr ⟨fun l' hl' => Option.mem_unique hl hl' ▸ hpl, hright⟩
  · rintro (⟨hleft, hright⟩ | ⟨hleft, hright⟩)
    · refine ⟨hleft, fun r' hr' => (hright r hr).right_mono ?_⟩
      have := hb.ordered l hl r' hr'
      grind
    · refine ⟨fun l' hl' => (hleft l hl).left_mono ?_, hright⟩
      have := ha.ordered l' hl' r hr
      grind

lemma proper_joined (ha : a.Proper) (hb : b.Proper) (hr : r ∈ a.right) (hl : l ∈ b.left)
    (hrl : r.value < l.value ∨ r.value = l.value ∧ (r.isOpen = true ∨ l.isOpen = true)) :
    Interval.Proper ⟨a.left, b.right⟩ := by
  refine ⟨ha.left, hb.right, fun l' hl' r' hr' => ?_⟩
  have h₁ := ha.ordered l' hl' r hr
  have h₂ := hb.ordered l hl r' hr'
  grind

lemma normalizeNext_eq {iv : Interval V}
    (h : iv.left.isSome → iv.right.isSome → iv.normalized = iv) :
    normalizeNext iv = some iv.normalized := by
  obtain ⟨l, r⟩ := iv
  cases l <;> cases r <;> simp_all [normalizeNext, Interval.normalized]

lemma endsAtOrAfter_of_before (ha : a.Proper) (hb : b.Proper) (h : a.Before b) :
    endsAtOrAfter b a = true := by
  obtain ⟨r, hr, l, hl, hrl⟩ := h
  obtain ⟨bl, br⟩ := b
  cases br with
  | none => simp [endsAtOrAfter]
  | some r' =>
    have := hb.ordered l hl r' rfl
    simp only [endsAtOrAfter, Option.mem_def.mp hr, ha.right r hr, hb.right r' rfl]
    split <;> simp <;> grind

lemma rightEndsAscend_of_canonical (h : s.Canonical) : rightEndsAscend s = true := by
  induction s with
  | nil => rfl
  | cons a rest ih =>
    cases rest with
    | nil => rfl
    | cons b rest =>
      have hab := rel_of_pairwise_cons h.apart mem_cons_self
      have hrest := ih (h.drop 1)
      simp [rightEndsAscend, hrest,
        endsAtOrAfter_of_before (h.proper a (by simp)) (h.proper b (by simp)) hab.1]

section Ops

variable [IntervalOps V]

/-- The intervals merged so far, newest first, are proper, apart, and before those still to come. -/
structure Merging (merged : List (Interval V)) (rest : IntervalSet V) : Prop where
  proper : ∀ iv ∈ merged, iv.Proper
  apart : merged.Pairwise fun later earlier => earlier.Apart later
  ahead : ∀ iv ∈ merged, ∀ next ∈ rest, iv.Before next.normalized

/-- One round of `normalize_and_join` takes in the points of the next interval. -/
lemma joinNext_spec {next : Interval V} {rest : IntervalSet V}
    (hrest : IntervalSet.Valid (next :: rest)) {merged : List (Interval V)}
    (h : Merging merged (next :: rest)) :
    ∃ merged', joinNext (merged, true) next = some (merged', true) ∧ Merging merged' rest ∧
      ∀ p : Point V, p.Valid →
        (IntervalSet.Mem merged' p ↔ IntervalSet.Mem merged p ∨ next.normalized.Mem p) := by
  have hnext := hrest.proper next (by simp)
  have hnorm := normalizeNext_eq (hrest.finite next (by simp))
  have hafter : ∀ iv ∈ rest, next.normalized.Before iv.normalized := fun iv hiv =>
    (pairwise_cons.mp hrest.ascending).1 _ (mem_map_of_mem hiv)
  have hahead : ∀ iv ∈ merged, ∀ n ∈ rest, iv.Before n.normalized := fun iv hiv n hn =>
    h.ahead iv hiv n (by simp [hn])
  cases merged with
  | nil =>
    exact ⟨[next.normalized], by simp [joinNext, hnorm],
      ⟨by simpa using hnext, by simp, by simpa using hafter⟩, by simp⟩
  | cons prev older =>
    obtain ⟨hprev, hproper⟩ := forall_mem_cons.mp h.proper
    obtain ⟨hnewer, holder⟩ := pairwise_cons.mp h.apart
    obtain ⟨r, hr, l, hl, hrl⟩ := h.ahead prev (by simp) next (by simp)
    have hjoined := joined_eq hprev hnext hr hl
    rcases hmeets : r.meets l with _ | _
    · -- the new interval stands on its own
      have hnew : prev.Apart next.normalized := by
        refine ⟨⟨r, hr, l, hl, hrl⟩, fun r' hr' l' hl' => ?_⟩
        rw [← Option.mem_unique hr hr', ← Option.mem_unique hl hl', hmeets]
      have hapart : ∀ iv ∈ prev :: older, iv.Apart next.normalized :=
        forall_mem_cons.mpr ⟨hnew, fun iv hiv => (hnewer iv hiv).1.trans_apart hprev hnew⟩
      refine ⟨next.normalized :: prev :: older, ?_,
        ⟨forall_mem_cons.mpr ⟨hnext, h.proper⟩, pairwise_cons.mpr ⟨hapart, h.apart⟩,
          forall_mem_cons.mpr ⟨hafter, hahead⟩⟩, fun p _ => ?_⟩
      · simp [joinNext, hnorm, hjoined, hmeets, IntervalOps.lt_of_before hnew.1 hprev hnext]
      · rw [IntervalSet.mem_cons, or_comm]
    · -- the new interval extends the last one
      refine ⟨⟨prev.left, next.normalized.right⟩ :: older, ?_,
        ⟨forall_mem_cons.mpr ⟨proper_joined hprev hnext hr hl hrl, hproper⟩,
          pairwise_cons.mpr ⟨hnewer, holder⟩,
          forall_mem_cons.mpr ⟨hafter, (forall_mem_cons.mp hahead).2⟩⟩, fun p hp => ?_⟩
      · simp [joinNext, hnorm, hjoined, hmeets]
      · rw [IntervalSet.mem_cons, IntervalSet.mem_cons,
          mem_joined_iff hprev hnext hr hl hrl hmeets hp, or_right_comm]

lemma foldlM_joinNext {rest : IntervalSet V} (hrest : rest.Valid) {merged : List (Interval V)}
    (h : Merging merged rest) :
    ∃ final, rest.foldlM joinNext (merged, true) = some (final, true) ∧ Merging final [] ∧
      ∀ p : Point V, p.Valid →
        (IntervalSet.Mem final p ↔ IntervalSet.Mem merged p ∨ IntervalSet.Mem rest p) := by
  induction rest generalizing merged with
  | nil => exact ⟨merged, rfl, h, by simp⟩
  | cons next rest ih =>
    obtain ⟨merged', hjoin, h', hmem⟩ := joinNext_spec hrest h
    have htail : IntervalSet.Valid rest := ⟨fun iv hiv => hrest.proper iv (by simp [hiv]),
        fun iv hiv => hrest.finite iv (by simp [hiv]),
        (pairwise_cons.mp hrest.ascending).2⟩
    obtain ⟨final, hfold, hfinal, hfmem⟩ := ih htail h'
    refine ⟨final, by simp [hjoin, hfold], hfinal, fun p hp => ?_⟩
    rw [hfmem p hp, hmem p hp, IntervalSet.mem_cons, Interval.mem_normalized hp, or_assoc]

/-- **Canonical form**: a valid set has one, of the same points, and no assertion fails on the
way. -/
theorem canonicalRuns_spec (hs : s.Valid) :
    ∃ t : IntervalSet V, canonicalRuns s = some t ∧ t.Canonical ∧
      ∀ p : Point V, p.Valid → (t.Mem p ↔ s.Mem p) := by
  have hnone : Merging [] s := ⟨by simp, by simp, by simp⟩
  obtain ⟨final, hfold, hfinal, hmem⟩ := foldlM_joinNext hs hnone
  have hcanon : IntervalSet.Canonical final.reverse :=
    ⟨by simpa using hfinal.proper, pairwise_reverse.mpr hfinal.apart⟩
  refine ⟨final.reverse, ?_, hcanon, fun p hp => ?_⟩
  · simp [canonicalRuns, normalizeAndJoin, hfold, rightEndsAscend_of_canonical hcanon]
  · have hrev : IntervalSet.Mem final.reverse p ↔ IntervalSet.Mem final p := by
      simp [IntervalSet.Mem]
    rw [hrev, hmem p hp]
    simp

end Ops

end Cambra
