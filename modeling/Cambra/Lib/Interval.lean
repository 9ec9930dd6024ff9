import Mathlib.Order.Cover
import Mathlib.Tactic.Order

/-!
# Intervals over a domain that names some neighbours

An interval is a pair of optional bounds, each open or closed, over a linearly ordered domain
`V`.  A domain may also name the neighbour of a value on either side: integers do, strings do
not.  An implementation of interval sets sees nothing else of the domain, so it cannot tell that
nothing lies between a string and the next one, or above the greatest `u64`.

`Point V` is the line such an implementation works on: every value, and a point just beside a
value on each side where the domain names no neighbour.  Every bound cuts that line in two
(`Bound.Holds`), and two bounds that cut it at one place are the same bound once `normalized`.
On this line containment and emptiness of interval sets can be decided from the bounds alone;
on the values alone they cannot.

## Main definitions

* `Domain`, `Point`, `Bound`, `Interval`, `IntervalSet`.
* `Bound.normalized`: an open bound as the closed bound of the neighbour, where there is one.
* `Interval.Proper`: normalized and not inverted, hence inhabited (`Interval.Proper.exists_mem`).
* `Interval.Before`: ordered and not intersecting.
* `IntervalSet.Valid`: what an implementation keeps of its sets.
* `IntervalOps`: the set operations, with what is assumed of them.
-/

namespace Cambra

open Option

/-- A side of a value or of an interval. -/
inductive Side where
  | left
  | right
deriving DecidableEq, Repr

/-- The other side. -/
def Side.flip : Side → Side
  | .left => .right
  | .right => .left

@[simp] lemma Side.flip_left : Side.left.flip = .right := rfl

@[simp] lemma Side.flip_right : Side.right.flip = .left := rfl

/-- A linear order that names the neighbours of some of its values. -/
class Domain (V : Type*) extends LinearOrder V where
  /-- The next smaller or larger value, where the domain names one. -/
  tryAdjacent : Side → V → Option V
  covBy_of_adjacent : ∀ {a b : V}, tryAdjacent .right a = some b → a ⋖ b
  adjacent_left_iff : ∀ {a b : V}, tryAdjacent .left b = some a ↔ tryAdjacent .right a = some b

/-- The line an interval implementation works on: the values, and what may lie just beside one. -/
inductive Point (V : Type*) where
  | below (v : V)
  | here (v : V)
  | above (v : V)

/-- A bound of an interval. -/
structure Bound (V : Type*) where
  isOpen : Bool
  value : V
deriving DecidableEq, Repr

/-- An interval by its bounds; a missing bound is unbounded on that side. -/
@[ext]
structure Interval (V : Type*) where
  left : Option (Bound V)
  right : Option (Bound V)
deriving DecidableEq, Repr

/-- A set of intervals, in the order they are kept. -/
abbrev IntervalSet (V : Type*) := List (Interval V)

variable {V : Type*} [Domain V]

open Domain

/-! ## Points -/

variable {x : Point V} {b l r : Bound V} {a iv : Interval V}

namespace Point

/-- The point lies above the value `v`. -/
def Gt : Point V → V → Prop
  | .below w, v => v < w
  | .here w, v => v < w
  | .above w, v => v ≤ w

/-- The point lies below the value `v`. -/
def Lt : Point V → V → Prop
  | .below w, v => w ≤ v
  | .here w, v => w < v
  | .above w, v => w < v

/-- A point beside a value exists only where the domain names no neighbour there. -/
def Valid : Point V → Prop
  | .below w => tryAdjacent .left w = none
  | .here _ => True
  | .above w => tryAdjacent .right w = none

variable {v w : V}

lemma Gt.mono (h : x.Gt w) (hvw : v ≤ w) : x.Gt v := by cases x <;> simp only [Gt] at h ⊢ <;> order

lemma Lt.mono (h : x.Lt v) (hvw : v ≤ w) : x.Lt w := by cases x <;> simp only [Lt] at h ⊢ <;> order

lemma Gt.lt_of_not_gt (h : x.Gt v) (hw : ¬x.Gt w) : v < w := by
  by_contra hle
  exact hw (h.mono (not_lt.mp hle))

lemma Lt.lt_of_not_lt (h : x.Lt w) (hv : ¬x.Lt v) : v < w := by
  by_contra hle
  exact hv (h.mono (not_lt.mp hle))

lemma Gt.lt_of_lt (h : x.Gt v) (hw : x.Lt w) : v < w := by
  cases x <;> simp only [Gt, Lt] at h hw <;> order

lemma le_of_not_lt_of_not_gt (hv : ¬x.Lt v) (hw : ¬x.Gt w) : v ≤ w := by
  cases x <;> simp only [Gt, Lt] at hv hw <;> order

/-- Nothing lies between neighbours. -/
lemma Valid.gt_iff_of_adjacent (hx : x.Valid) {a b : V} (h : tryAdjacent .right a = some b) :
    x.Gt a ↔ ¬x.Lt b := by
  have hab := covBy_of_adjacent h
  cases x with
  | below w =>
    constructor
    · intro hgt hlt
      obtain rfl : w = b := le_antisymm hlt (hab.ge_of_gt hgt)
      simp [Valid, adjacent_left_iff.mpr h] at hx
    · intro hlt
      exact hab.1.trans (not_le.mp hlt)
  | here w =>
    constructor
    · intro hgt hlt
      exact absurd (hab.ge_of_gt hgt) (not_le.mpr hlt)
    · intro hlt
      exact hab.1.trans_le (not_lt.mp hlt)
  | above w =>
    constructor
    · intro hgt hlt
      obtain rfl : a = w := by
        by_contra hne
        exact absurd (hab.ge_of_gt (lt_of_le_of_ne hgt hne)) (not_le.mpr hlt)
      simp [Valid, h] at hx
    · intro hlt
      exact hab.1.le.trans (not_lt.mp hlt)

end Point

/-! ## Bounds -/

namespace Bound

/-- The half of the line a bound leaves, as the bound of the given side. -/
def Holds : Side → Bound V → Point V → Prop
  | .left, b, x => if b.isOpen then x.Gt b.value else ¬x.Lt b.value
  | .right, b, x => if b.isOpen then x.Lt b.value else ¬x.Gt b.value

/-- `Holds` at a value. -/
def contains (side : Side) (b : Bound V) (v : V) : Bool :=
  match side, b.isOpen with
  | .left, true => b.value < v
  | .left, false => b.value ≤ v
  | .right, true => v < b.value
  | .right, false => v ≤ b.value

/-- A bound as an implementation normalizes it: an open bound is the closed bound of the next
value inward, where the domain names one. -/
def normalized (side : Side) (b : Bound V) : Bound V :=
  if b.isOpen then
    match tryAdjacent side.flip b.value with
    | some w => ⟨false, w⟩
    | none => b
  else b

lemma contains_iff (side : Side) (b : Bound V) (v : V) :
    b.contains side v = true ↔ b.Holds side (.here v) := by
  obtain ⟨o, w⟩ := b
  cases side <;> cases o <;> simp [contains, Holds, Point.Lt, Point.Gt]

variable {side : Side}

lemma holds_normalized (hx : x.Valid) : (b.normalized side).Holds side x ↔ b.Holds side x := by
  obtain ⟨o, v⟩ := b
  cases o with
  | false => simp [normalized]
  | true =>
    cases hadj : tryAdjacent side.flip v with
    | none => simp [normalized, hadj]
    | some w =>
      cases side with
      | left => simp [normalized, Holds, show tryAdjacent .right v = some w from hadj,
          hx.gt_iff_of_adjacent hadj]
      | right =>
        have hw : tryAdjacent .right w = some v := adjacent_left_iff.mp hadj
        have := hx.gt_iff_of_adjacent hw
        simp [normalized, Holds, show tryAdjacent .left v = some w from hadj, this]

lemma normalized_normalized (side : Side) (b : Bound V) :
    (b.normalized side).normalized side = b.normalized side := by
  obtain ⟨o, v⟩ := b
  cases o with
  | false => simp [normalized]
  | true => cases hadj : tryAdjacent side.flip v <;> simp [normalized, hadj]

/-- A normalized open bound is one whose inward neighbour the domain does not name. -/
lemma adjacent_eq_none_of_normalized (h : b.normalized side = b) (ho : b.isOpen = true) :
    tryAdjacent side.flip b.value = none := by
  cases hadj : tryAdjacent side.flip b.value with
  | none => rfl
  | some w =>
    simp only [normalized, ho, hadj, if_true] at h
    rw [← h] at ho
    simp at ho

end Bound

/-! ## The order of the line -/

namespace Point

/-- `x` lies at or below `y`: no value separates them the other way round. -/
def Le (x y : Point V) : Prop := (∀ v, x.Gt v → y.Gt v) ∧ ∀ v, y.Lt v → x.Lt v

variable {y : Point V}

lemma Le.holds_left (h : x.Le y) (hx : b.Holds .left x) : b.Holds .left y := by
  obtain ⟨o, v⟩ := b
  cases o with
  | false => simpa [Bound.Holds] using mt (h.2 v) (by simpa [Bound.Holds] using hx)
  | true => simpa [Bound.Holds] using h.1 v (by simpa [Bound.Holds] using hx)

lemma Le.holds_right (h : x.Le y) (hy : b.Holds .right y) : b.Holds .right x := by
  obtain ⟨o, v⟩ := b
  cases o with
  | false => simpa [Bound.Holds] using mt (h.1 v) (by simpa [Bound.Holds] using hy)
  | true => simpa [Bound.Holds] using h.2 v (by simpa [Bound.Holds] using hy)

end Point

namespace Bound

/-- A left end no later than one that leaves a point leaves it too. -/
lemma Holds.left_mono {l' : Bound V} (h : l.Holds .left x)
    (hle : l'.value < l.value ∨ l'.value = l.value ∧ (l'.isOpen = true → l.isOpen = true)) :
    l'.Holds .left x := by
  rcases ho : l.isOpen with _ | _ <;> rcases ho' : l'.isOpen with _ | _ <;>
    simp only [Holds, ho, ho', if_true, if_false, Bool.false_eq_true] at h hle ⊢
  · exact fun hlt => h (hlt.mono (hle.elim le_of_lt fun e => e.1.le))
  · by_contra hgt
    have := Point.le_of_not_lt_of_not_gt h hgt
    grind
  · intro hlt
    have := h.lt_of_lt hlt
    grind
  · exact h.mono (hle.elim le_of_lt fun e => e.1.le)

/-- A right end no earlier than one that leaves a point leaves it too. -/
lemma Holds.right_mono {r' : Bound V} (h : r.Holds .right x)
    (hle : r.value < r'.value ∨ r.value = r'.value ∧ (r'.isOpen = true → r.isOpen = true)) :
    r'.Holds .right x := by
  rcases ho : r.isOpen with _ | _ <;> rcases ho' : r'.isOpen with _ | _ <;>
    simp only [Holds, ho, ho', if_true, if_false, Bool.false_eq_true] at h hle ⊢
  · exact fun hgt => h (hgt.mono (hle.elim le_of_lt fun e => e.1.le))
  · by_contra hlt
    have := Point.le_of_not_lt_of_not_gt hlt h
    grind
  · intro hgt
    have := hgt.lt_of_lt h
    grind
  · exact h.mono (hle.elim le_of_lt fun e => e.1.le)

/-- The least point a left bound leaves. -/
def leastPoint (b : Bound V) : Point V :=
  if b.isOpen then .above b.value else .here b.value

/-- The least point a right bound leaves out. -/
def pointAfter (b : Bound V) : Point V :=
  if b.isOpen then .here b.value
  else match tryAdjacent .right b.value with
    | some w => .here w
    | none => .above b.value

lemma leastPoint_valid (h : b.normalized .left = b) : b.leastPoint.Valid := by
  rcases ho : b.isOpen with _ | _
  · simp [leastPoint, ho, Point.Valid]
  · simpa [leastPoint, ho, Point.Valid] using adjacent_eq_none_of_normalized h ho

lemma leastPoint_le (h : b.Holds .left x) : b.leastPoint.Le x := by
  obtain ⟨o, v⟩ := b
  cases o with
  | false =>
    have hx : ¬x.Lt v := by simpa [Holds] using h
    refine ⟨fun w hw => ?_, fun w hw => ?_⟩
    · cases x <;> simp_all [leastPoint, Point.Gt, Point.Lt] <;> order
    · exact hw.lt_of_not_lt hx
  | true =>
    have hx : x.Gt v := by simpa [Holds] using h
    refine ⟨fun w hw => hx.mono (by simpa [leastPoint, Point.Gt] using hw), fun w hw => ?_⟩
    exact hx.lt_of_lt hw

lemma holds_leastPoint (b : Bound V) : b.Holds .left b.leastPoint := by
  rcases ho : b.isOpen with _ | _ <;> simp [Holds, leastPoint, ho, Point.Lt, Point.Gt]

lemma pointAfter_valid (b : Bound V) : b.pointAfter.Valid := by
  unfold pointAfter
  split
  · trivial
  · split
    · trivial
    · assumption

lemma not_holds_pointAfter (b : Bound V) : ¬b.Holds .right b.pointAfter := by
  rcases ho : b.isOpen with _ | _
  · cases hadj : tryAdjacent .right b.value with
    | none => simp [Holds, pointAfter, ho, hadj, Point.Gt]
    | some w => simpa [Holds, pointAfter, ho, hadj, Point.Gt] using (covBy_of_adjacent hadj).1
  · simp [Holds, pointAfter, ho, Point.Lt]

/-- What a right bound leaves lies below the first point it leaves out. -/
lemma le_pointAfter (hx : x.Valid) (h : b.Holds .right x) : x.Le b.pointAfter := by
  obtain ⟨o, v⟩ := b
  cases o with
  | false =>
    have hgt : ¬x.Gt v := by simpa [Holds] using h
    cases hadj : tryAdjacent .right v with
    | none =>
      refine ⟨fun w hw => ?_, fun w hw => ?_⟩
      · simpa [pointAfter, hadj, Point.Gt] using (hw.lt_of_not_gt hgt).le
      · have hvw : v < w := by simpa [pointAfter, hadj, Point.Lt] using hw
        by_contra hnot
        exact absurd (Point.le_of_not_lt_of_not_gt hnot hgt) (not_le.mpr hvw)
    | some u =>
      have hvu := (covBy_of_adjacent hadj).1
      have hlt : x.Lt u := by
        by_contra hnot
        exact hgt ((hx.gt_iff_of_adjacent hadj).mpr hnot)
      refine ⟨fun w hw => ?_, fun w hw => ?_⟩
      · simpa [pointAfter, hadj, Point.Gt] using hw.lt_of_lt hlt
      · have huw : u < w := by simpa [pointAfter, hadj, Point.Lt] using hw
        exact hlt.mono huw.le
  | true =>
    have hlt : x.Lt v := by simpa [Holds] using h
    refine ⟨fun w hw => ?_, fun w hw => ?_⟩
    · simpa [pointAfter, Point.Gt] using hw.lt_of_lt hlt
    · have hvw : v < w := by simpa [pointAfter, Point.Lt] using hw
      exact hlt.mono hvw.le

/-- A right end and the left end after it leave nothing between them: they share a value that is
in one of the two, or are closed at neighbours. -/
def meets (stop start : Bound V) : Bool :=
  if stop.value = start.value then !(stop.isOpen && start.isOpen)
  else !stop.isOpen && !start.isOpen && tryAdjacent .right stop.value == some start.value

/-- Ordered right and left ends that do not meet leave a point between them. -/
lemma not_holds_pointAfter_of_not_meets
    (hrl : r.value < l.value ∨ r.value = l.value ∧ (r.isOpen = true ∨ l.isOpen = true))
    (h : r.meets l = false) : ¬l.Holds .left r.pointAfter := by
  obtain ⟨ro, rv⟩ := r
  obtain ⟨lo, lv⟩ := l
  simp only at hrl
  rcases hrl with hlt | ⟨rfl, hopen⟩
  · simp only [meets, hlt.ne, if_false] at h
    cases ro with
    | true => cases lo <;> simp [Holds, pointAfter, Point.Lt, Point.Gt, hlt, hlt.le]
    | false =>
      cases hadj : tryAdjacent .right rv with
      | none => cases lo <;> simp [Holds, pointAfter, hadj, Point.Lt, Point.Gt, hlt]
      | some w =>
        have hw := (covBy_of_adjacent hadj).ge_of_gt hlt
        cases lo with
        | true => simpa [Holds, pointAfter, hadj, Point.Gt] using hw
        | false =>
          have hne : w ≠ lv := by simpa [hadj] using h
          simpa [Holds, pointAfter, hadj, Point.Lt] using lt_of_le_of_ne hw hne
  · simp only [meets, if_true, Bool.not_eq_false', Bool.and_eq_true] at h
    simp [Holds, pointAfter, h.1, h.2, Point.Gt]

/-- Every point above a right end is at or above a left end that meets it. -/
lemma holds_left_of_meets (h : r.meets l = true) (hx : x.Valid) (hr : ¬r.Holds .right x) :
    l.Holds .left x := by
  obtain ⟨ro, rv⟩ := r
  obtain ⟨lo, lv⟩ := l
  by_cases hv : rv = lv
  · subst hv
    simp only [meets, if_true, Bool.not_eq_true', Bool.and_eq_false_iff] at h
    cases ro <;> cases lo <;> cases x <;> simp_all [Holds, Point.Lt, Point.Gt]
    order
  · simp only [meets, hv, if_false, Bool.and_eq_true, Bool.not_eq_true', beq_iff_eq] at h
    obtain ⟨⟨rfl, rfl⟩, hadj⟩ := h
    simpa [Holds, hx.gt_iff_of_adjacent hadj] using hr

end Bound

/-! ## Intervals -/

namespace Interval

/-- The interval holds the point. -/
def Mem (iv : Interval V) (x : Point V) : Prop :=
  (∀ l ∈ iv.left, l.Holds .left x) ∧ ∀ r ∈ iv.right, r.Holds .right x

/-- `Mem` at a value. -/
def contains (iv : Interval V) (v : V) : Bool :=
  iv.left.all (·.contains .left v) && iv.right.all (·.contains .right v)

/-- The interval with both bounds normalized. -/
def normalized (iv : Interval V) : Interval V :=
  ⟨iv.left.map (·.normalized .left), iv.right.map (·.normalized .right)⟩

/-- Normalized bounds that are not inverted. -/
structure Proper (iv : Interval V) : Prop where
  left : ∀ l ∈ iv.left, l.normalized .left = l
  right : ∀ r ∈ iv.right, r.normalized .right = r
  ordered : ∀ l ∈ iv.left, ∀ r ∈ iv.right,
    l.value < r.value ∨ l.value = r.value ∧ l.isOpen = false ∧ r.isOpen = false

/-- `a` ends before `b` starts, so the two do not intersect. -/
def Before (a b : Interval V) : Prop := ∃ r ∈ a.right, ∃ l ∈ b.left,
    r.value < l.value ∨ r.value = l.value ∧ (r.isOpen = true ∨ l.isOpen = true)

/-- `a` ends before `b` starts and something lies between them. -/
def Apart (a b : Interval V) : Prop := Before a b ∧ ∀ r ∈ a.right, ∀ l ∈ b.left, r.meets l = false

/-- `a` starts where `b` does or earlier. -/
def StartLe (a b : Interval V) : Prop := ∀ la ∈ a.left, ∃ lb ∈ b.left,
    la.value < lb.value ∨ la.value = lb.value ∧ (la.isOpen = true → lb.isOpen = true)

lemma contains_iff (iv : Interval V) (v : V) : iv.contains v = true ↔ iv.Mem (.here v) := by
  simp [contains, Mem, Bound.contains_iff, all_eq_true]

lemma mem_normalized (hx : x.Valid) : iv.normalized.Mem x ↔ iv.Mem x := by
  obtain ⟨l, r⟩ := iv
  cases l <;> cases r <;> simp [normalized, Mem, Bound.holds_normalized hx]

lemma Proper.normalized_eq (h : iv.Proper) : iv.normalized = iv := by
  obtain ⟨l, r⟩ := iv
  have hl := h.left
  have hr := h.right
  cases l <;> cases r <;> simp_all [normalized]

/-- The least point of an interval that starts is one of its points. -/
lemma Proper.mem_leastPoint (h : iv.Proper) (hl : l ∈ iv.left) : iv.Mem l.leastPoint := by
  refine ⟨fun l' hl' => ?_, fun r hr => ?_⟩
  · obtain rfl : l = l' := mem_unique hl hl'
    exact l.holds_leastPoint
  · have hlr := h.ordered l hl r hr
    rcases ho : l.isOpen with _ | _ <;> rcases hro : r.isOpen with _ | _ <;>
      simp_all [Bound.Holds, Bound.leastPoint, Point.Lt, Point.Gt]
    rcases hlr with hlt | heq
    · exact hlt.le
    · exact heq.le

/-- Nothing is both short of the end of `a` and past the start of `b`. -/
lemma Before.not_holds {b : Interval V} (h : a.Before b) (ha : ∀ r ∈ a.right, r.Holds .right x) :
    ¬∀ l ∈ b.left, l.Holds .left x := by
  intro hb
  obtain ⟨r, hr, l, hl, hrl⟩ := h
  have hxr := ha r hr
  have hxl := hb l hl
  rcases ho : l.isOpen with _ | _ <;> rcases hro : r.isOpen with _ | _ <;>
    simp [Bound.Holds, ho, hro] at hxr hxl
  · have := Point.le_of_not_lt_of_not_gt hxl hxr
    rcases hrl with hlt | ⟨_, hopen⟩
    · order
    · simp [ho, hro] at hopen
  · have := hxr.lt_of_not_lt hxl
    rcases hrl with hlt | ⟨heq, _⟩ <;> order
  · have := hxl.lt_of_not_gt hxr
    rcases hrl with hlt | ⟨heq, _⟩ <;> order
  · have := hxl.lt_of_lt hxr
    rcases hrl with hlt | ⟨heq, _⟩ <;> order

lemma startLe_iff {b : Interval V} {lb : Bound V} (hlb : lb ∈ b.left) :
    a.StartLe b ↔ ∀ la ∈ a.left, la.Holds .left lb.leastPoint := by
  refine forall₂_congr fun la _ => ?_
  have huniq : (∃ lb' ∈ b.left, la.value < lb'.value ∨
      la.value = lb'.value ∧ (la.isOpen = true → lb'.isOpen = true)) ↔
      (la.value < lb.value ∨ la.value = lb.value ∧ (la.isOpen = true → lb.isOpen = true)) :=
    ⟨fun ⟨lb', hlb', h⟩ => mem_unique hlb' hlb ▸ h, fun h => ⟨lb, hlb, h⟩⟩
  rw [huniq]
  rcases ho : la.isOpen with _ | _ <;> rcases ho' : lb.isOpen with _ | _ <;>
    simp [Bound.Holds, Bound.leastPoint, Point.Lt, Point.Gt, ho, ho', le_iff_lt_or_eq]

variable {c : Interval V}

lemma Before.trans {b : Interval V} (hab : a.Before b) (hb : b.Proper) (hbc : b.Before c) :
    a.Before c := by
  obtain ⟨r, hr, l, hl, hrl⟩ := hab
  obtain ⟨r', hr', l', hl', hrl'⟩ := hbc
  have hb := hb.ordered l hl r' hr'
  refine ⟨r, hr, l', hl', ?_⟩
  grind

/-- An interval past one that is apart from `a` is apart from `a` too. -/
lemma Before.trans_apart {b : Interval V} (hab : a.Before b) (hb : b.Proper) (hbc : b.Apart c) :
    a.Apart c := by
  refine ⟨hab.trans hb hbc.1, fun r hr l' hl' => ?_⟩
  obtain ⟨r₀, hr₀, l, hl, hrl⟩ := hab
  obtain rfl : r₀ = r := mem_unique hr₀ hr
  obtain ⟨r', hr', l₀, hl₀, hrl'⟩ := hbc.1
  obtain rfl : l₀ = l' := mem_unique hl₀ hl'
  have hlr := hb.ordered l hl r' hr'
  rcases hm : r₀.meets l₀ with _ | _
  · rfl
  by_cases hv : r₀.value = l₀.value
  · simp only [Bound.meets, hv, if_true, Bool.not_eq_true', Bool.and_eq_false_iff] at hm
    grind
  simp only [Bound.meets, hv, if_false, Bool.and_eq_true, Bool.not_eq_true', beq_iff_eq] at hm
  obtain ⟨⟨hro, hlo⟩, hadj⟩ := hm
  have hcov := covBy_of_adjacent hadj
  -- `b` lies between neighbours, so it would have to be open at one of them
  have hlv : l.value = r₀.value ∨ l.value = l₀.value := by
    rcases hrl with hlt | ⟨heq, _⟩
    · have := hcov.ge_of_gt hlt
      right
      grind
    · exact .inl heq.symm
  rcases hlv with hlv | hlv
  · have hlo' : l.isOpen = true := by grind
    have := Bound.adjacent_eq_none_of_normalized (hb.left l hl) hlo'
    simp [hlv, hadj] at this
  · grind

/-- The first point past `a` lies in nothing that is apart from `a`. -/
lemma Apart.not_mem_pointAfter {b : Interval V} (h : a.Apart b) (hr : r ∈ a.right) :
    ¬b.Mem r.pointAfter := by
  intro hb
  obtain ⟨r₀, hr₀, l, hl, hrl⟩ := h.1
  obtain rfl : r₀ = r := mem_unique hr₀ hr
  exact Bound.not_holds_pointAfter_of_not_meets hrl (h.2 _ hr l hl) (hb.1 l hl)

/-- An interval that is ordered before another starts strictly before it. -/
lemma Before.not_startLe {b : Interval V} (h : a.Before b) (ha : a.Proper) : ¬b.StartLe a := by
  intro hle
  obtain ⟨r, hr, l, hl, hrl⟩ := h
  obtain ⟨la, hla, hlt⟩ := hle l hl
  have := ha.ordered la hla r hr
  grind

end Interval

/-! ## Sets of intervals -/

namespace IntervalSet

/-- The set holds the point. -/
def Mem (s : IntervalSet V) (x : Point V) : Prop := ∃ iv ∈ s, iv.Mem x

@[simp] lemma not_mem_nil (x : Point V) : ¬Mem [] x := by simp [Mem]

variable {s : IntervalSet V}

@[simp] lemma mem_cons : Mem (iv :: s) x ↔ iv.Mem x ∨ Mem s x := by simp [Mem]

/-- What an implementation keeps of a set: its intervals are not empty, they ascend and do not
intersect, and a finite one is normalized.  Neighbouring intervals may touch, and a half-bounded
one may have an open bound that names a neighbour. -/
structure Valid (s : IntervalSet V) : Prop where
  proper : ∀ iv ∈ s, iv.normalized.Proper
  finite : ∀ iv ∈ s, iv.left.isSome → iv.right.isSome → iv.normalized = iv
  ascending : (s.map Interval.normalized).Pairwise Interval.Before

/-- The one spelling of a set: normalized intervals with something between any two. -/
structure Canonical (s : IntervalSet V) : Prop where
  proper : ∀ iv ∈ s, iv.Proper
  apart : s.Pairwise Interval.Apart

/-- Normalized intervals in order. -/
structure Ascending (s : IntervalSet V) : Prop where
  proper : ∀ iv ∈ s, iv.Proper
  before : s.Pairwise Interval.Before

lemma Ascending.valid (h : Ascending s) : Valid s := by
  have hmap : s.map Interval.normalized = s :=
    (List.map_congr_left fun iv hiv => (h.proper iv hiv).normalized_eq).trans (List.map_id' s)
  refine ⟨fun iv hiv => ?_, fun iv hiv _ _ => (h.proper iv hiv).normalized_eq, ?_⟩
  · rw [(h.proper iv hiv).normalized_eq]
    exact h.proper iv hiv
  · rw [hmap]
    exact h.before

lemma Canonical.ascending (h : Canonical s) : Ascending s :=
  ⟨h.proper, h.apart.imp fun hab => hab.1⟩

lemma Canonical.valid (h : Canonical s) : Valid s := h.ascending.valid

lemma mem_map_normalized (hx : x.Valid) : Mem (s.map Interval.normalized) x ↔ Mem s x := by
  simp [Mem, Interval.mem_normalized hx]

end IntervalSet

/-- **The operations of an interval-set implementation**, with what is assumed of them: each
keeps the sets `Valid` and denotes the set operation on the line of the domain, and intervals are
ordered by where they start. -/
class IntervalOps (V : Type*) [Domain V] where
  union : IntervalSet V → IntervalSet V → IntervalSet V
  intersection : IntervalSet V → IntervalSet V → IntervalSet V
  difference : IntervalSet V → IntervalSet V → IntervalSet V
  complement : IntervalSet V → IntervalSet V
  /-- A set made of any intervals. -/
  new : List (Interval V) → IntervalSet V
  /-- The order of two intervals. -/
  lt : Interval V → Interval V → Bool
  union_valid : ∀ {a b : IntervalSet V}, a.Canonical → b.Canonical → (union a b).Valid
  intersection_valid : ∀ {a b : IntervalSet V}, a.Valid → b.Valid → (intersection a b).Valid
  difference_valid : ∀ {a b : IntervalSet V}, a.Canonical → b.Canonical → (difference a b).Valid
  complement_valid : ∀ {a : IntervalSet V}, a.Canonical → (complement a).Valid
  mem_union : ∀ {a b : IntervalSet V}, a.Canonical → b.Canonical → ∀ {x : Point V}, x.Valid →
    ((union a b).Mem x ↔ a.Mem x ∨ b.Mem x)
  mem_intersection : ∀ {a b : IntervalSet V}, a.Valid → b.Valid → ∀ {x : Point V}, x.Valid →
    ((intersection a b).Mem x ↔ a.Mem x ∧ b.Mem x)
  mem_difference : ∀ {a b : IntervalSet V}, a.Canonical → b.Canonical → ∀ {x : Point V}, x.Valid →
    ((difference a b).Mem x ↔ a.Mem x ∧ ¬b.Mem x)
  mem_complement : ∀ {a : IntervalSet V}, a.Canonical → ∀ {x : Point V}, x.Valid →
    ((complement a).Mem x ↔ ¬a.Mem x)
  startLe_of_lt : ∀ {a b : Interval V}, a.Proper → b.Proper → lt a b = true → a.StartLe b
  startLe_of_not_lt : ∀ {a b : Interval V}, a.Proper → b.Proper → lt a b = false → b.StartLe a

/-- **What is assumed of a set made of one interval**: it holds that interval's points. -/
class IntervalOps.LawfulNew (V : Type*) [Domain V] [IntervalOps V] : Prop where
  new_valid : ∀ {iv : Interval V}, IntervalSet.Valid [iv] → (IntervalOps.new [iv]).Valid
  mem_new : ∀ {iv : Interval V}, IntervalSet.Valid [iv] → ∀ {x : Point V}, x.Valid →
    ((IntervalOps.new [iv]).Mem x ↔ iv.Mem x)

/-- Intervals in order are ordered by the implementation. -/
lemma IntervalOps.lt_of_before [IntervalOps V] {b : Interval V} (h : a.Before b) (ha : a.Proper)
    (hb : b.Proper) : IntervalOps.lt a b = true := by
  rcases hlt : IntervalOps.lt a b with _ | _
  · exact absurd (IntervalOps.startLe_of_not_lt ha hb hlt) (h.not_startLe ha)
  · rfl

end Cambra
