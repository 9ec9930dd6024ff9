import Cambra.Lib.OrdMap

/-!
# Reading a store's changelog

A store tile holds, for each of its keys, the changelog of the key, the positions that wrote it in
ascending order against the values written there, and the seed the key stands at before its first
change.  `store_value_at` carries the latest write at or before a position forward and
`store_delta_at` reads the change at exactly a position; `fold_changelog_key` picks one of them by
the carry policy.  Both scan the whole log.

A reader that wants every position of a stream asks for them in one pass
(`fold_changelog_key_ascending`): a cursor goes down the log as the queries ascend and never back.
Between two queries the cursor stands where the writes at or before the last query end, and what is
carried is the last of them or the seed; that is all the pass has to remember.

## Main result

* `foldChangelogKeyAscending_eq`: the pass answers each query as the scan does.
-/

namespace Cambra

open List

/-- What a store tile holds of its keys: the changelog of each, `none` for a key outside the key
space, and its seed. -/
structure StoreTile (κ P ν : Type) [LinearOrder P] where
  changelog : κ → Option (OrdMap P ν)
  storeSeedValue : κ → Option ν

namespace StoreTile

variable {κ P ν : Type} [LinearOrder P]

/-! ## Definitions -/

/-- The key's value as of `t`: the latest change at or before `t`, and the seed where there is
none. -/
def storeValueAt (tile : StoreTile κ P ν) (t : P) (key : κ) : Option ν := do
  let log ← tile.changelog key
  ((log.entries.reverse.find? (·.1 ≤ t)).map (·.2)).or (tile.storeSeedValue key)

/-- The key's value written at exactly `t`. -/
def storeDeltaAt (tile : StoreTile κ P ν) (t : P) (key : κ) : Option ν := do
  let log ← tile.changelog key
  (log.entries.find? (·.1 = t)).map (·.2)

/-- The key's value at `t` under the carry policy: an accumulator holds its latest write, a reply
tap has a value at the position that wrote it alone. -/
def foldChangelogKey (tile : StoreTile κ P ν) (t : P) (key : κ) (carryForward : Bool) : Option ν :=
  if carryForward then tile.storeValueAt t key else tile.storeDeltaAt t key

/-- The inner loop: the changes at or before `t` are taken off the log; the last of them is carried,
and one at exactly `t` is set aside. -/
def advance (t : P) : List (P × ν) → (carry exact : Option ν) → List (P × ν) × Option ν × Option ν
  | [], carry, exact => ([], carry, exact)
  | (position, v) :: rest, carry, exact =>
    if t < position then ((position, v) :: rest, carry, exact)
    else advance t rest (some v) (if position = t then some v else exact)

/-- The outer loop: one answer for each query, the cursor and the carried value going on from one to
the next. -/
def foldQueries (carryForward : Bool) : List (P × ν) → Option ν → List P → List (Option ν)
  | _, _, [] => []
  | log, carry, t :: queries =>
    let (log, carry, exact) := advance t log carry none
    (if carryForward then carry else exact) :: foldQueries carryForward log carry queries

/-- The key read at every position of an ascending list, in one pass. -/
def foldChangelogKeyAscending (tile : StoreTile κ P ν) (queries : List P) (key : κ)
    (carryForward : Bool) : List (Option ν) :=
  match tile.changelog key with
  | none => queries.map fun _ => none
  | some log => foldQueries carryForward log.entries (tile.storeSeedValue key) queries

/-! ## The pass -/

section Pass

variable {log passed later : List (P × ν)} {t : P} {carry : Option ν}

/-- The log as the cursor divides it at `t`. -/
structure Divides (t : P) (log passed later : List (P × ν)) : Prop where
  append : log = passed ++ later
  passed_le : ∀ x ∈ passed, x.1 ≤ t
  lt_later : ∀ x ∈ later, t < x.1

lemma Divides.storeValueAt (h : Divides t log passed later) :
    log.reverse.find? (·.1 ≤ t) = passed.getLast? := by
  have hlater : later.reverse.find? (·.1 ≤ t) = none := by
    simpa using fun a b hab => h.lt_later (a, b) hab
  rw [h.append, reverse_append, find?_append, hlater, Option.none_or]
  cases hlast : passed.getLast? with
  | none => simp_all
  | some x =>
    have hle := h.passed_le x (mem_of_getLast? hlast)
    obtain ⟨front, rfl⟩ := getLast?_eq_some_iff.mp hlast
    simp [hle]

lemma Divides.storeDeltaAt (h : Divides t log passed later) :
    log.find? (·.1 = t) = passed.find? (·.1 = t) := by
  have hlater : later.find? (·.1 = t) = none := by
    simpa using fun a b hab heq => (h.lt_later (a, b) hab).ne heq.symm
  rw [h.append, find?_append, hlater, Option.or_none]

/-- **The inner loop** takes the changes at or before `t` off the log and carries the last of
them. -/
lemma advance_spec (hlog : log.Pairwise (·.1 < ·.1)) (carry exact : Option ν) :
    ∃ passed later, Divides t log passed later ∧
      advance t log carry exact = (later, (passed.getLast?.map (·.2)).or carry,
        ((passed.find? (·.1 = t)).map (·.2)).or exact) := by
  induction log generalizing carry exact with
  | nil => exact ⟨[], [], ⟨rfl, by simp, by simp⟩, rfl⟩
  | cons x rest ih =>
    obtain ⟨position, v⟩ := x
    obtain ⟨hfirst, hrest⟩ := pairwise_cons.mp hlog
    by_cases hlt : t < position
    · refine ⟨[], (position, v) :: rest, ⟨rfl, by simp, ?_⟩, by rw [advance, if_pos hlt]; rfl⟩
      rintro y (_ | ⟨_, hy⟩)
      · exact hlt
      · exact hlt.trans (hfirst y hy)
    · obtain ⟨passed, later, hd, hadv⟩ := ih hrest (some v) (if position = t then some v else exact)
      refine ⟨(position, v) :: passed, later, ⟨by rw [hd.append]; rfl, ?_, hd.lt_later⟩, ?_⟩
      · rintro y (_ | ⟨_, hy⟩)
        · exact not_lt.mp hlt
        · exact hd.passed_le y hy
      have hcarry : (passed.getLast?.map (·.2)).or (some v) =
          (((position, v) :: passed).getLast?.map (·.2)).or carry := by
        rw [getLast?_cons]
        cases passed.getLast? <;> rfl
      rw [advance, if_neg hlt, hadv, hcarry]
      by_cases heq : position = t
      · -- the positions ascend, so no other change is at `t`
        have hnone : passed.find? (·.1 = t) = none := by
          simpa [heq] using fun a b hab h =>
            (hfirst (a, b) (hd.append ▸ mem_append_left _ hab)).ne (heq.trans h.symm)
        rw [hnone]
        simp [heq]
      · simp [heq]

/-- **The pass** from a cursor that stands after `done`, the changes before every query. -/
lemma foldQueries_eq (carryForward : Bool) {seed : Option ν} {queries : List P}
    (hq : queries.Pairwise (· < ·)) {done log : List (P × ν)}
    (hlog : (done ++ log).Pairwise (·.1 < ·.1)) (hdone : ∀ x ∈ done, ∀ t ∈ queries, x.1 < t) :
    foldQueries carryForward log ((done.getLast?.map (·.2)).or seed) queries = queries.map fun t =>
        if carryForward then (((done ++ log).reverse.find? (·.1 ≤ t)).map (·.2)).or seed
        else ((done ++ log).find? (·.1 = t)).map (·.2) := by
  induction queries generalizing done log with
  | nil => rfl
  | cons t queries ih =>
    obtain ⟨hfirst, hrest⟩ := pairwise_cons.mp hq
    obtain ⟨passed, later, hd, hadv⟩ := advance_spec (t := t) (pairwise_append.mp hlog).2.1
      ((done.getLast?.map (·.2)).or seed) none
    -- the whole log, as the cursor divides it after this query
    have hwhole : Divides t (done ++ log) (done ++ passed) later := by
      refine ⟨by rw [hd.append, append_assoc], fun x hx => ?_, hd.lt_later⟩
      rcases mem_append.mp hx with hx | hx
      · exact (hdone x hx t mem_cons_self).le
      · exact hd.passed_le x hx
    have hcarry : (passed.getLast?.map (·.2)).or ((done.getLast?.map (·.2)).or seed) =
        ((done ++ passed).getLast?.map (·.2)).or seed := by
      rw [getLast?_append]
      cases passed.getLast? <;> rfl
    have hexact : passed.find? (·.1 = t) = (done ++ passed).find? (·.1 = t) := by
      have hnone : done.find? (·.1 = t) = none := by
        simpa using fun a b hab h => (hdone (a, b) hab t mem_cons_self).ne h
      rw [find?_append, hnone, Option.none_or]
    have hnext := @ih hrest (done ++ passed) later (by rwa [← hwhole.append])
      fun x hx q hq => (hwhole.passed_le x hx).trans_lt (hfirst q hq)
    rw [foldQueries, hadv, hcarry]
    simp only [hnext, ← hwhole.append, map_cons, hwhole.storeValueAt, hwhole.storeDeltaAt,
      hexact, Option.or_none]

end Pass

/-- **One pass over the changelog answers each query as a scan of the whole log does**: with the
latest write at or before it, or the entry at exactly it. -/
theorem foldChangelogKeyAscending_eq (tile : StoreTile κ P ν) (key : κ) {queries : List P}
    (hq : queries.Pairwise (· < ·)) (carryForward : Bool) :
    tile.foldChangelogKeyAscending queries key carryForward =
      queries.map fun t => tile.foldChangelogKey t key carryForward := by
  unfold foldChangelogKeyAscending foldChangelogKey storeValueAt storeDeltaAt
  cases tile.changelog key with
  | none => simp
  | some log => exact @foldQueries_eq _ _ _ carryForward _ _ hq [] _ log.sorted (by simp)

/-- A key seeded with `0` and written at `2` and `5`, read before, at, between and after its
writes. -/
theorem foldChangelogKeyAscending_two_writes :
    let tile : StoreTile Unit ℕ ℕ := ⟨fun _ => some ⟨[(2, 20), (5, 50)], by simp⟩, fun _ => some 0⟩
    tile.foldChangelogKeyAscending [1, 2, 4, 7] () true = [some 0, some 20, some 20, some 50] ∧
      tile.foldChangelogKeyAscending [1, 2, 4, 7] () false = [none, some 20, none, none] := by
  intro tile
  have hq : [1, 2, 4, 7].Pairwise (· < ·) := by decide
  constructor
  · exact (foldChangelogKeyAscending_eq tile () hq true).trans (by decide)
  · exact (foldChangelogKeyAscending_eq tile () hq false).trans (by decide)

end StoreTile

end Cambra
