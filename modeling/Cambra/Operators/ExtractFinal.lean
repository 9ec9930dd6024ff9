import Cambra.Tiling.Position

/-!
# Final-value extraction

`ExtractFinal` answers what the last live position of a collection holds once the collection is
complete, and a default if no position is live.  While the collection still grows it already
releases the positions below the greatest live one, if they are integers.

The source is any that keeps its contract (`Delivers`): there is one collection, of which every
answer shows some rows in any column order, a row is never taken back but for a release, and an
answer called complete shows every row that was not released.  What a row holds, a value, a record
or a whole group, is one parameter.

The early releases are safe in every run: a key they name lies below one that is live and stays.
The answer is taken from the last live row of the column, though, so it is what the greatest key
holds exactly where that row holds it (`extracts_iff`); a column out of key order gives another one
(`unsorted_column_extracts_wrong`).
-/

namespace Cambra

open List hiding Mem getElem?_eq_some_iff
open Option

namespace ExtractFinal

open Predicate (Mem)

/-! ## The operator -/

/-- What the source answers at a pull: its keys in column order, the rows a filter or a release has
removed, what each row holds, and whether the collection is complete. -/
structure SourceTile (e : {e : Extent // e.WellFormed}) (A : Type*) where
  domain : List (Position e)
  deleted : List ℕ
  codomain : ℕ → A
  terminal : Bool

variable {e : {e : Extent // e.WellFormed}} {A : Type*}

/-- The position of an integer key. -/
def asUInt (k : Position e) : Option U64 :=
  match k.1 with
  | .scalar .uint p => some p
  | _ => none

namespace SourceTile

/-- The rows that are not deleted, in column order. -/
def liveRows (t : SourceTile e A) : List ℕ := (List.range t.domain.length).filter (· ∉ t.deleted)

/-- The greatest of the live integer keys. -/
def maxPos (t : SourceTile e A) : Option U64 :=
  (t.liveRows.filterMap fun i => t.domain[i]?.bind asUInt).max?

/-- The last row that is not deleted. -/
def liveOuter (t : SourceTile e A) : Option ℕ :=
  (List.range t.domain.length).reverse.find? (· ∉ t.deleted)

/-- Row `i` is live and has the key `k`. -/
def Live (t : SourceTile e A) (i : ℕ) (k : Position e) : Prop :=
  t.domain[i]? = some k ∧ i ∉ t.deleted

end SourceTile

/-- The state of a producer: the answer it has found, and whether its consumer has released it. -/
structure Producer (A : Type*) where
  finalTile : Option A
  released : Bool

/-- One pull.  `d` is what the default answers, once it is complete; a source that finishes empty is
a panic if none is declared.  The third component is what the source is told to release. -/
def getImpl (declared : Bool) (s : Producer A) (t : SourceTile e A) (d : Option A) :
    Option (Producer A × Option A × Option Predicate) :=
  if s.released then some (s, none, none)
  else match s.finalTile with
    | some a => some (s, some a, none)
    | none =>
      if t.terminal then
        match t.liveOuter with
        | some i => some (⟨some (t.codomain i), s.released⟩, some (t.codomain i), some .tt)
        | none => if declared then some (⟨d, s.released⟩, d, some .tt) else none
      else match t.maxPos with
        | some p =>
          if 1 ≤ p then (Predicate.atOrBelow (.scalar .uint (p - 1))).map fun r => (s, none, some r)
          else some (s, none, none)
        | none => some (s, none, none)

/-- One release by the consumer, of everything or of nothing. -/
def releaseImpl (s : Producer A) (universal : Bool) : Producer A × Option Predicate :=
  if universal then (⟨s.finalTile, true⟩, some .tt) else (s, none)

/-! ## Runs -/

/-- A pull, with what the source and the default have to answer, or a release. -/
inductive Event (e : {e : Extent // e.WellFormed}) (A : Type*) where
  | pull (t : SourceTile e A) (default : Option A)
  | release (universal : Bool)

/-- The producer and the regions it has released to its source. -/
structure State (A : Type*) where
  producer : Producer A
  gone : List Predicate

/-- The state after one event; `declared` is whether there is a default. -/
def step (declared : Bool) (s : State A) : Event e A → Option (State A)
  | .pull t d => do
    let (producer, _, p) ← getImpl declared s.producer t d
    return ⟨producer, s.gone ++ p.toList⟩
  | .release universal =>
    let (producer, p) := releaseImpl s.producer universal
    some ⟨producer, s.gone ++ p.toList⟩

/-- The state after some events. -/
def run (declared : Bool) (events : List (Event e A)) : Option (State A) :=
  events.foldlM (step declared) ⟨⟨none, false⟩, []⟩

/-- The source was told to release `k`. -/
def State.Gone (s : State A) (k : Position e) : Prop := ∃ p ∈ s.gone, Mem p [k.1.point]

/-- Some answer of the source was complete. -/
def Completed (events : List (Event e A)) : Prop := ∃ t d, .pull t d ∈ events ∧ t.terminal = true

/-- The run comes to the state `s` after the events `before`, and pulls. -/
structure Pulls (declared : Bool) (events before : List (Event e A)) (t : SourceTile e A)
    (d : Option A) (s : State A) : Prop where
  initial : before ++ [.pull t d] <+: events
  run : run declared before = some s

/-- The source delivers the collection `coll`, and the default stays what it is once complete. -/
structure Delivers (declared : Bool) (coll : Position e → Option A) (events : List (Event e A)) :
    Prop where
  /-- Without a default the collection has a row. -/
  total : declared = true ∨ ∃ k, coll k ≠ none
  /-- A live row is one of the collection, and not released. -/
  live : ∀ {before t d s}, Pulls declared events before t d s → ∀ {i k}, t.Live i k →
    coll k ≠ none ∧ ¬s.Gone k
  /-- A complete answer has what is not released, as the collection has it. -/
  complete : ∀ {before t d s}, Pulls declared events before t d s → t.terminal = true →
    (∀ {i k}, t.Live i k → coll k = some (t.codomain i)) ∧
      ∀ {k}, coll k ≠ none → ¬s.Gone k → ∃ i, t.Live i k
  /-- Completion is not taken back. -/
  stays : ∀ {before t d}, before ++ [.pull t d] <+: events → Completed before → t.terminal = true
  /-- Nor is the default. -/
  default : ∀ {before t d t' a}, before ++ [.pull t d] <+: events → .pull t' (some a) ∈ before →
    d = some a

/-- The answer for a complete collection: what its greatest key holds, or the default. -/
def Answers (coll : Position e → Option A) (d ans : Option A) : Prop :=
  (∀ k, IsGreatest {k | coll k ≠ none} k → ans = coll k) ∧ ((∀ k, coll k = none) → ans = d)

/-- What one pull of a producer should give after the events `before`.  Unless it is released, it
answers nothing until the source is complete, and releases only keys below one that is live; then it
answers for the collection, if `G`. -/
structure Pulled (G : Prop) (coll : Position e → Option A) (before : List (Event e A))
    (t : SourceTile e A) (d ans : Option A) (p : Option Predicate) : Prop where
  released : .release true ∈ before → ans = none
  growing : .release true ∉ before → ¬Completed (before ++ [.pull t d]) → ans = none ∧
    ∀ r ∈ p, ∃ i k', t.Live i k' ∧ ∀ k : Position e, Mem r [k.1.point] → k < k'
  settled : .release true ∉ before → Completed (before ++ [.pull t d]) → G → Answers coll d ans

/-- **Final-value extraction**: every pull of the run gives what it should. -/
def Extracts (declared : Bool) (coll : Position e → Option A) (events : List (Event e A)) : Prop :=
  ∀ before t d, before ++ [.pull t d] <+: events → ∃ s s' ans p,
    Pulls declared events before t d s ∧ getImpl declared s.producer t d = some (s', ans, p) ∧
      Pulled True coll before t d ans p

/-- The last live row of the first complete answer holds what the row of its greatest key does. -/
def LastIsGreatest (events : List (Event e A)) : Prop :=
  ∀ before t d, before ++ [.pull t d] <+: events → .release true ∉ before → ¬Completed before →
    t.terminal = true → ∀ i j k, t.liveOuter = some i → t.Live j k →
    (∀ j' k', t.Live j' k' → k' ≤ k) → t.codomain i = t.codomain j

/-! ## Rows -/

lemma live_of_liveOuter {t : SourceTile e A} {i : ℕ} (h : t.liveOuter = some i) :
    ∃ k, t.Live i k := by
  have hi := mem_range.mp (mem_reverse.mp (mem_of_find?_eq_some h))
  exact ⟨t.domain[i], getElem?_eq_getElem hi, by simpa using find?_some h⟩

lemma not_live_of_liveOuter {t : SourceTile e A} (h : t.liveOuter = none) (i : ℕ)
    (k : Position e) : ¬t.Live i k := by
  rintro ⟨hk, hi⟩
  obtain ⟨hlt, -⟩ := List.getElem?_eq_some_iff.mp hk
  exact absurd (find?_eq_none.mp h i (by simpa using hlt)) (by simpa using hi)

lemma exists_live_of_maxPos {t : SourceTile e A} {p : U64} (h : t.maxPos = some p) :
    ∃ i k, t.Live i k ∧ asUInt k = some p := by
  obtain ⟨i, hi, hp⟩ := mem_filterMap.mp (max?_mem h)
  obtain ⟨k, hk, hp⟩ := bind_eq_some_iff.mp hp
  exact ⟨i, k, ⟨hk, by simpa using (mem_filter.mp hi).2⟩, hp⟩

lemma upTo_uint {e : Extent} {v : Value} {p : U64} (hv : v.Spells e) (hp : v = .scalar .uint p)
    (q : U64) : ∃ r, Predicate.upTo (.scalar .uint q) true none = some r ∧
      Predicate.IsPrefix e (.scalar .uint q) true r := by
  induction hv with
  | scalar h v =>
    obtain ⟨rfl, -⟩ := Value.scalar.inj hp
    exact Predicate.upTo_scalar h q true none
  | dataSourceDomain _ ih | restricted _ ih =>
    obtain ⟨r, hr, hover, hmem⟩ := ih hp
    exact ⟨r, hr, hover, fun w hw => hmem w (spells_resolve_iff.mpr hw)⟩
  | _ => cases hp

lemma sub_one_lt {p : U64} (hp : 1 ≤ p) : p - 1 < p := by
  rw [Fin.le_def] at hp
  rw [Fin.lt_def, Fin.sub_val_of_le hp]
  have hone : (1 : U64).val = 1 := rfl
  omega

/-- The early release stays below the key it is computed from. -/
lemma exists_atOrBelow {k : Position e} {p : U64} (hk : asUInt k = some p) (hp : 1 ≤ p) :
    ∃ r, Predicate.atOrBelow (.scalar .uint (p - 1)) = some r ∧
      ∀ k' : Position e, Mem r [k'.1.point] → k' < k := by
  have hval : k.1 = .scalar .uint p := by
    unfold asUInt at hk
    split at hk
    · rename_i h
      rw [h, Option.some.inj hk]
    · cases hk
  obtain ⟨r, hr, -, hmem⟩ := upTo_uint k.2 hval (p - 1)
  refine ⟨r, hr, fun k' hk' => ?_⟩
  have hlt : Value.partialCmp (.scalar .uint (p - 1)) k.1 = some .lt := by
    rw [hval, Value.partialCmp_scalar, Option.some.injEq]
    exact compare_lt_iff_lt.mpr (sub_one_lt hp)
  have hcmp : Value.partialCmp k'.1 k.1 = some .lt := by
    rcases (hmem k'.1 k'.2).mp hk' with h | ⟨-, h⟩
    · exact Value.partialCmp_lt_trans h hlt
    · rwa [Value.partialCmp_eq_iff.mp h]
  exact Option.some.inj ((Position.partialCmp_eq k' k).symm.trans hcmp)

lemma getImpl_growing {declared : Bool} {s : Producer A} (hs : s = ⟨none, false⟩)
    {t : SourceTile e A} (ht : t.terminal = false) (d : Option A) :
    ∃ p, getImpl declared s t d = some (s, none, p) ∧
      ∀ r ∈ p, ∃ i k', t.Live i k' ∧ ∀ k : Position e, Mem r [k.1.point] → k < k' := by
  subst hs
  simp only [getImpl, ht, Bool.false_eq_true, if_false]
  cases hmax : t.maxPos with
  | none => exact ⟨none, rfl, by simp⟩
  | some p =>
    by_cases hp : 1 ≤ p
    · obtain ⟨i, k, hlive, hk⟩ := exists_live_of_maxPos hmax
      obtain ⟨r, hr, hlt⟩ := exists_atOrBelow hk hp
      refine ⟨some r, by simp only [if_pos hp, hr, map_some], fun r' hr' => ?_⟩
      cases hr'
      exact ⟨i, k, hlive, hlt⟩
    · exact ⟨none, by simp only [if_neg hp], by simp⟩

/-! ## Along a run -/

variable {declared : Bool} {coll : Position e → Option A} {events before : List (Event e A)}
  {s : State A} {t : SourceTile e A} {d : Option A} {r : Option Predicate} {producer : Producer A}

lemma run_concat (ev : Event e A) :
    run declared (before ++ [ev]) = (run declared before).bind fun s => step declared s ev := by
  simp [run, foldlM_append]

lemma completed_concat :
    Completed (before ++ [.pull t d]) ↔ Completed before ∨ t.terminal = true := by
  simp only [Completed, mem_append, mem_singleton]
  grind

lemma gone_append {k : Position e} : State.Gone ⟨producer, s.gone ++ r.toList⟩ k ↔
    s.Gone k ∨ ∃ p ∈ r, Mem p [k.1.point] := by
  simp only [State.Gone, mem_append, mem_toList, Option.mem_def]
  grind

/-- What holds of the state after the events `before`; `G` is whether complete answers end on their
greatest key. -/
structure Inv (coll : Position e → Option A) (G : Prop) (before : List (Event e A)) (s : State A) :
    Prop where
  released : s.producer.released = true ↔ .release true ∈ before
  growing : .release true ∉ before → ¬Completed before → s.producer.finalTile = none ∧
    ∀ k, s.Gone k → ∃ k', k < k' ∧ coll k' ≠ none ∧ ¬s.Gone k'
  settled : .release true ∉ before → Completed before → (∀ k : Position e, s.Gone k) ∧
    (s.producer.finalTile = none → ∀ k, coll k = none) ∧
    ∀ a, s.producer.finalTile = some a →
      (G → ∀ k, IsGreatest {k | coll k ≠ none} k → some a = coll k) ∧
      ((∀ k, coll k = none) → ∃ t, .pull t (some a) ∈ before)

section Pull

variable (h : Delivers declared coll events) (hnow : Pulls declared events before t d s)
  (hs : Inv coll (LastIsGreatest events) before s)

include h hnow hs

/-- The greatest key of the first complete answer is the greatest of the collection. -/
lemma isGreatest_iff (hrel : .release true ∉ before) (hcompl : ¬Completed before)
    (hterm : t.terminal = true) {k : Position e} :
    IsGreatest {k | coll k ≠ none} k ↔ (∃ j, t.Live j k) ∧ ∀ j' k', t.Live j' k' → k' ≤ k := by
  obtain ⟨-, hkept⟩ := hs.growing hrel hcompl
  obtain ⟨-, hall⟩ := h.complete hnow hterm
  constructor
  · rintro ⟨hk, hub⟩
    refine ⟨hall hk fun hgone => ?_, fun j' k' hk' => hub (h.live hnow hk').1⟩
    obtain ⟨k', hlt, hk', -⟩ := hkept k hgone
    exact absurd (hub hk') (not_le.mpr hlt)
  · rintro ⟨⟨j, hj⟩, hub⟩
    refine ⟨(h.live hnow hj).1, fun k' hk' => ?_⟩
    by_cases hgone : s.Gone k'
    · obtain ⟨k₂, hlt, hk₂, hk₂s⟩ := hkept k' hgone
      obtain ⟨j', hj'⟩ := hall hk₂ hk₂s
      exact hlt.le.trans (hub j' k₂ hj')
    · obtain ⟨j', hj'⟩ := hall hk' hgone
      exact hub j' k' hj'

lemma pull_growing (hrel : .release true ∉ before) (hterm : t.terminal = false)
    (hnew : s.producer = ⟨none, false⟩) : ∃ s' ans p,
    getImpl declared s.producer t d = some (s', ans, p) ∧
    Pulled (LastIsGreatest events) coll before t d ans p ∧
    Inv coll (LastIsGreatest events) (before ++ [.pull t d]) ⟨s', s.gone ++ p.toList⟩ := by
  have hcompl : ¬Completed before := fun hc => by simp [h.stays hnow.initial hc] at hterm
  have hcompl' : ¬Completed (before ++ [.pull t d]) := by simp [completed_concat, hcompl, hterm]
  obtain ⟨p, hget, hp⟩ := getImpl_growing hnew hterm d
  refine ⟨_, _, p, hget, ⟨fun _ => rfl, fun _ _ => ⟨rfl, hp⟩, fun _ hc => absurd hc hcompl'⟩, ?_⟩
  refine ⟨by simpa using hs.released, fun _ _ => ⟨by rw [hnew], fun k hk => ?_⟩,
    fun _ hc => absurd hc hcompl'⟩
  -- a key that was released lies below one that is not: the last one live, if that one goes too
  have hstep : ∀ k, (∃ r ∈ p, Mem r [k.1.point]) →
      ∃ k', k < k' ∧ coll k' ≠ none ∧ ¬State.Gone ⟨s.producer, s.gone ++ p.toList⟩ k' := by
    rintro k ⟨r, hr, hk⟩
    obtain ⟨i, k', hlive, hlt⟩ := hp r hr
    obtain ⟨hk', hgone⟩ := h.live hnow hlive
    refine ⟨k', hlt k hk, hk', fun hg => ?_⟩
    rcases gone_append.mp hg with hg | ⟨r', hr', hg⟩
    · exact hgone hg
    · obtain rfl := mem_unique hr hr'
      exact lt_irrefl _ (hlt k' hg)
  rcases gone_append.mp hk with hk | hk
  · obtain ⟨k', hlt, hk', hgone⟩ := (hs.growing hrel hcompl).2 k hk
    by_cases hnow : ∃ r ∈ p, Mem r [k'.1.point]
    · obtain ⟨k₂, hlt₂, hk₂⟩ := hstep k' hnow
      exact ⟨k₂, hlt.trans hlt₂, hk₂⟩
    · exact ⟨k', hlt, hk', fun hg => (gone_append.mp hg).elim hgone hnow⟩
  · exact hstep k hk

lemma getImpl_complete (hrel : .release true ∉ before) (hterm : t.terminal = true)
    (hnew : s.producer = ⟨none, false⟩) : ∃ ans,
    getImpl declared s.producer t d = some (⟨ans, false⟩, ans, some .tt) ∧
    (LastIsGreatest events → Answers coll d ans) ∧ (ans = none → ∀ k, coll k = none) ∧
    ((∀ k, coll k = none) → ans = d) := by
  obtain ⟨hholds, hall⟩ := h.complete hnow hterm
  have hfinal : s.producer.finalTile = none := by rw [hnew]
  rw [hnew]
  simp only [getImpl, hterm, if_true, Bool.false_eq_true, if_false]
  cases hout : t.liveOuter with
  | some i =>
    obtain ⟨k₀, hk₀⟩ := live_of_liveOuter hout
    obtain ⟨hsome, hgone⟩ := h.live hnow hk₀
    have hcompl : ¬Completed before := fun hc => hgone ((hs.settled hrel hc).1 k₀)
    refine ⟨some (t.codomain i), rfl, fun hG => ⟨fun k hk => ?_, fun hn => absurd (hn k₀) hsome⟩,
      by simp, fun hn => absurd (hn k₀) hsome⟩
    obtain ⟨⟨j, hj⟩, hub⟩ := (isGreatest_iff h hnow hs hrel hcompl hterm).mp hk
    rw [hholds hj, hG _ _ _ hnow.initial hrel hcompl hterm i j k hout hj hub]
  | none =>
    have hempty : ∀ k, coll k = none := by
      by_contra hn
      obtain ⟨k, hk⟩ := not_forall.mp hn
      by_cases hc : Completed before
      · exact hk ((hs.settled hrel hc).2.1 hfinal k)
      by_cases hgone : s.Gone k
      · obtain ⟨k', -, hk', hgone'⟩ := (hs.growing hrel hc).2 k hgone
        obtain ⟨j, hj⟩ := hall hk' hgone'
        exact not_live_of_liveOuter hout j k' hj
      · obtain ⟨j, hj⟩ := hall hk hgone
        exact not_live_of_liveOuter hout j k hj
    have hdecl : declared = true :=
      h.total.resolve_right fun hk => hk.elim fun k hk => hk (hempty k)
    exact ⟨d, by simp [hdecl], fun _ => ⟨fun k hk => absurd (hempty k) hk.1, fun _ => rfl⟩,
      fun _ => hempty, fun _ => rfl⟩

/-- **One pull** gives what it should, and keeps the invariant. -/
lemma pull_spec : ∃ s' ans p, getImpl declared s.producer t d = some (s', ans, p) ∧
    Pulled (LastIsGreatest events) coll before t d ans p ∧
    Inv coll (LastIsGreatest events) (before ++ [.pull t d]) ⟨s', s.gone ++ p.toList⟩ := by
  have hmem : .release true ∈ before ++ [Event.pull t d] ↔ .release true ∈ before := by simp
  by_cases hrel : .release true ∈ before
  · have hflag := hs.released.mpr hrel
    refine ⟨s.producer, none, none, by rw [getImpl, if_pos hflag], ?_, ?_⟩
    · exact ⟨fun _ => rfl, fun hn => absurd hrel hn, fun hn => absurd hrel hn⟩
    · exact ⟨hs.released.trans hmem.symm, fun hn => absurd (hmem.mpr hrel) hn,
        fun hn => absurd (hmem.mpr hrel) hn⟩
  have hflag : s.producer.released = false := by simpa using mt hs.released.mp hrel
  cases hfinal : s.producer.finalTile with
  | some a =>
    -- the answer was found before
    have hcompl : Completed before := by
      by_contra hn
      simp [(hs.growing hrel hn).1] at hfinal
    have hcompl' : Completed (before ++ [.pull t d]) := completed_concat.mpr (.inl hcompl)
    obtain ⟨hgone, -, hset⟩ := hs.settled hrel hcompl
    refine ⟨s.producer, some a, none, by simp [getImpl, hflag, hfinal],
      ⟨fun hr => absurd hr hrel, fun _ hn => absurd hcompl' hn, fun _ _ hG => ?_⟩, ?_⟩
    · refine ⟨(hset a hfinal).1 hG, fun hcoll => ?_⟩
      obtain ⟨t', ht'⟩ := (hset a hfinal).2 hcoll
      exact (h.default hnow.initial ht').symm
    · refine ⟨hs.released.trans hmem.symm, fun _ hn => absurd hcompl' hn, fun _ _ =>
        ⟨fun k => gone_append.mpr (.inl (hgone k)), by simp [hfinal], fun b hb =>
          ⟨(hset b hb).1, fun hcoll => ?_⟩⟩⟩
      obtain ⟨t', ht'⟩ := (hset b hb).2 hcoll
      exact ⟨t', mem_append_left _ ht'⟩
  | none =>
    have hnew : s.producer = ⟨none, false⟩ := by rw [← hfinal, ← hflag]
    cases hterm : t.terminal with
    | false => exact pull_growing h hnow hs hrel hterm hnew
    | true =>
      have hcompl' : Completed (before ++ [.pull t d]) := completed_concat.mpr (.inr hterm)
      obtain ⟨ans, hget, hans, hnone, hd⟩ := getImpl_complete h hnow hs hrel hterm hnew
      refine ⟨_, ans, _, hget, ⟨fun hr => absurd hr hrel, fun _ hn => absurd hcompl' hn,
        fun _ _ => hans⟩, by simpa using hrel, fun _ hn => absurd hcompl' hn, fun _ _ =>
        ⟨fun k => gone_append.mpr (.inr ⟨.tt, rfl, by simp⟩), hnone, fun a ha =>
          ⟨fun hG k hk => ha ▸ (hans hG).1 k hk, fun hcoll => ⟨t, ?_⟩⟩⟩⟩
      rw [← hd hcoll, ← ha]
      simp

end Pull

/-- **The invariant holds along every run.** -/
lemma run_spec (h : Delivers declared coll events) (hevents : before <+: events) :
    ∃ s, run declared before = some s ∧ Inv coll (LastIsGreatest events) before s := by
  induction before using List.reverseRecOn with
  | nil =>
    refine ⟨_, rfl, by simp, fun _ _ => ⟨rfl, ?_⟩, ?_⟩
    · rintro k ⟨p, hp, -⟩
      cases hp
    · rintro - ⟨t, d, hmem, -⟩
      cases hmem
  | append_singleton before ev ih =>
    obtain ⟨s, hrun, hs⟩ := ih ((prefix_append ..).trans hevents)
    rw [run_concat, hrun, bind_some]
    cases ev with
    | pull t d =>
      obtain ⟨s', ans, p, hget, -, hinv⟩ := pull_spec h ⟨hevents, hrun⟩ hs
      exact ⟨_, by simp [step, hget], hinv⟩
    | release universal =>
      cases universal with
      | true =>
        exact ⟨_, rfl, by simp, fun hn => absurd (by simp) hn, fun hn => absurd (by simp) hn⟩
      | false =>
        have hcompl : Completed (before ++ [.release false]) ↔ Completed before := by
          simp [Completed]
        exact ⟨s, by simp [step, releaseImpl], by simpa using hs.released,
          by simpa [hcompl] using hs.growing, by simpa [hcompl] using hs.settled⟩

/-- **Extraction takes the greatest position** in exactly the runs whose first complete answer ends,
in column order, on a row that holds what the greatest live key does. -/
theorem extracts_iff (declared : Bool) (coll : Position e → Option A) (events : List (Event e A))
    (h : Delivers declared coll events) :
    Extracts declared coll events ↔ LastIsGreatest events := by
  constructor
  · intro hex before t d hevents hrel hcompl hterm i j k hout hj hub
    obtain ⟨s, s', ans, p, hnow, hget, hpulled⟩ := hex before t d hevents
    obtain ⟨_, hrun, hs⟩ := run_spec h ((prefix_append ..).trans hevents)
    obtain rfl := mem_unique hnow.run hrun
    have hk := (isGreatest_iff h hnow hs hrel hcompl hterm).mpr ⟨⟨j, hj⟩, hub⟩
    have hans := (hpulled.settled hrel (completed_concat.mpr (.inr hterm)) trivial).1 k hk
    have hflag : s.producer.released = false := by simpa using mt hs.released.mp hrel
    simp only [getImpl, hflag, (hs.growing hrel hcompl).1, hterm, hout, Bool.false_eq_true,
      if_false, if_true, Option.some.injEq, Prod.mk.injEq] at hget
    rw [← hget.2.1, (h.complete hnow hterm).1 hj] at hans
    exact Option.some.inj hans
  · intro hG before t d hevents
    obtain ⟨s, hrun, hs⟩ := run_spec h ((prefix_append ..).trans hevents)
    obtain ⟨s', ans, p, hget, hpulled, -⟩ := pull_spec h ⟨hevents, hrun⟩ hs
    exact ⟨s, s', ans, p, ⟨hevents, hrun⟩, hget, hpulled.released, hpulled.growing,
      fun hr hc _ => hpulled.settled hr hc hG⟩

/-! ## A column out of key order -/

/-- The domain of Booleans. -/
def boolDomain : {e : Extent // e.WellFormed} := ⟨.base .bool, .base⟩

/-- A position of it. -/
def pos (b : Bool) : Position boolDomain :=
  ⟨.scalar .bool b, .scalar (by rfl : Extent.scalarType (.base .bool) = some .bool) b⟩

/-- A complete answer: both positions in the given order, each holding itself. -/
def column (first : Bool) : SourceTile boolDomain (Position boolDomain) where
  domain := [pos first, pos !first]
  deleted := []
  codomain i := if i = 0 then pos first else pos !first
  terminal := true

lemma exists_pos (k : Position boolDomain) : ∃ b, k = pos b := by
  obtain ⟨v, hv⟩ := k
  cases hv with
  | scalar h b =>
    cases h
    exact ⟨b, rfl⟩

lemma pos_false_lt : pos false < pos true := by
  have h := Position.partialCmp_eq (pos false) (pos true)
  rw [pos, pos, Value.partialCmp_scalar] at h
  exact (Option.some.inj h).symm

lemma le_pos_true (k : Position boolDomain) : k ≤ pos true := by
  obtain ⟨_ | _, rfl⟩ := exists_pos k
  · exact pos_false_lt.le
  · exact le_rfl

lemma live_column {first : Bool} {i : ℕ} {k : Position boolDomain} (h : (column first).Live i k) :
    (column first).codomain i = k := by
  obtain ⟨hk, -⟩ := h
  rcases i with _ | _ | i <;> simp_all [column]

lemma eq_of_singleton {t' : SourceTile e A} {d' : Option A}
    (h : before ++ [.pull t d] <+: [.pull t' d']) : before = [] ∧ t = t' := by
  cases before with
  | nil => simp_all
  | cons _ before =>
    have := h.length_le
    simp at this

lemma delivers_column (first : Bool) : Delivers true some [.pull (column first) none] where
  total := .inl rfl
  live hnow _ _ _ := by
    obtain ⟨rfl, -⟩ := eq_of_singleton hnow.initial
    obtain rfl := Option.some.inj hnow.run
    exact ⟨by simp, by simp [State.Gone]⟩
  complete hnow _ := by
    obtain ⟨-, rfl⟩ := eq_of_singleton hnow.initial
    refine ⟨fun hk => congrArg some (live_column hk).symm, fun {k} _ _ => ?_⟩
    obtain ⟨b, rfl⟩ := exists_pos k
    by_cases hb : b = first
    · exact ⟨0, by simp [column, hb], by simp [column]⟩
    · exact ⟨1, by simp [column, Bool.eq_not.mpr hb], by simp [column]⟩
  stays hevents _ := by
    obtain ⟨-, rfl⟩ := eq_of_singleton hevents
    rfl
  default hevents hmem := by
    obtain ⟨rfl, -⟩ := eq_of_singleton hevents
    cases hmem

theorem extracts_sorted_column : Delivers true some [.pull (column false) none] ∧
    Extracts true some [.pull (column false) none] := by
  refine ⟨delivers_column false, (extracts_iff _ _ _ (delivers_column false)).mpr ?_⟩
  intro before t d hevents _ _ _ i j k hout hj hub
  obtain ⟨-, rfl⟩ := eq_of_singleton hevents
  obtain rfl : 1 = i := Option.some.inj hout
  have hlast : (column false).Live 1 (pos true) := ⟨rfl, by simp [column]⟩
  rw [live_column hj]
  exact le_antisymm (hub 1 _ hlast) (le_pos_true k)

/-- **The last row of a column need not be its greatest key.**  Of the positions `true` and `false`,
in this order, the extraction takes `false`. -/
theorem unsorted_column_extracts_wrong : Delivers true some [.pull (column true) none] ∧
    ¬Extracts true some [.pull (column true) none] := by
  refine ⟨delivers_column true, fun h => ?_⟩
  obtain ⟨s, s', ans, p, hnow, hget, hpulled⟩ := h [] _ _ (prefix_refl _)
  obtain rfl := Option.some.inj hnow.run
  have hans := (hpulled.settled (by simp) ⟨_, _, .head _, rfl⟩ trivial).1 (pos true)
    ⟨by simp, fun k _ => le_pos_true k⟩
  have hlast : ans = some (pos false) := (congrArg (fun x => x.2.1) (Option.some.inj hget)).symm
  exact pos_false_lt.ne (mem_unique hlast hans)

end ExtractFinal

end Cambra
