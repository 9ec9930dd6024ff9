import Cambra.Lib.Prune
import Cambra.Tiling.Region

/-!
# Flattening a union of arms

`Predicate::flatten_or` spreads nested unions, joins arms pairwise as long as some two of them
join into one, and drops the arms another one subsumes.  Whether it returns, and what it returns,
rests only on what `join` and `subsumes` answer for the arms it meets.  `ArmClass` collects that:
a class of predicates closed under joining, for which both answer, and answer right.

`flattenOr_spec` is then proved once, for every class.
-/

namespace Cambra

open List hiding getElem?_eq_some_iff

namespace Predicate

/-- The computation answers with a predicate over the levels that admits just the paths of `S`,
of the class `A`. -/
def Returns (levels : List Extent) (A : Predicate → Prop) (o : Option Predicate)
    (S : List KeyPoint → Prop) : Prop :=
  ∃ r, o = some r ∧ Over levels r ∧ A r ∧ ∀ x, InLevels levels x → (Mem r x ↔ S x)

variable {A : Predicate → Prop} {levels : List Extent} {arms : List Predicate} {p : Predicate}

lemma Returns.congr {o : Option Predicate} {S T : List KeyPoint → Prop} (h : Returns levels A o S)
    (hST : ∀ x, InLevels levels x → (S x ↔ T x)) : Returns levels A o T := by
  obtain ⟨r, hr, hover, hA, hmem⟩ := h
  exact ⟨r, hr, hover, hA, fun x hx => (hmem x hx).trans (hST x hx)⟩

lemma Returns.mono {B : Predicate → Prop} {o : Option Predicate} {S : List KeyPoint → Prop}
    (h : Returns levels A o S) (hAB : ∀ r, Over levels r → A r → B r) : Returns levels B o S := by
  obtain ⟨r, hr, hover, hA, hmem⟩ := h
  exact ⟨r, hr, hover, hAB r hover hA, hmem⟩

/-- The arms a predicate is made of, if it is a union, and itself otherwise, are of the class. -/
def Spreads (A : Predicate → Prop) (p : Predicate) : Prop := ∀ a ∈ spreadArms [p], A a

lemma mem_spreadArms {a : Predicate} : a ∈ spreadArms arms ↔ ∃ p ∈ arms, a ∈ spreadArms [p] := by
  simp [spreadArms]

lemma spreadArms_singleton_of_not_isOr (h : p.isOr = false) : spreadArms [p] = [p] := by
  cases p <;> simp_all [spreadArms, isOr]

lemma Spreads.of_not_isOr (h : p.isOr = false) (hp : A p) : Spreads A p := by
  simpa [Spreads, spreadArms_singleton_of_not_isOr h] using hp

lemma mem_iff_exists_spreadArms {x : List KeyPoint} : Mem p x ↔ ∃ a ∈ spreadArms [p], Mem a x := by
  cases hp : p.isOr with
  | false => simp [spreadArms_singleton_of_not_isOr hp]
  | true =>
    cases p with
    | ofOr arms => simp [spreadArms, mem_ofOr]
    | _ => cases hp

lemma exists_spreadArms_iff {x : List KeyPoint} :
    (∃ a ∈ spreadArms arms, Mem a x) ↔ ∃ p ∈ arms, Mem p x := by
  constructor
  · rintro ⟨a, ha, hx⟩
    obtain ⟨p, hp, hap⟩ := mem_spreadArms.mp ha
    exact ⟨p, hp, mem_iff_exists_spreadArms.mpr ⟨a, hap, hx⟩⟩
  · rintro ⟨p, hp, hx⟩
    obtain ⟨a, ha, hax⟩ := mem_iff_exists_spreadArms.mp hx
    exact ⟨a, mem_spreadArms.mpr ⟨p, hp, ha⟩, hax⟩

lemma spreadArms_ne_nil (hne : arms ≠ []) (h : ∀ p ∈ arms, Over levels p) :
    spreadArms arms ≠ [] := by
  obtain ⟨p, hp⟩ := exists_mem_of_ne_nil arms hne
  have hsome : ∃ a, a ∈ spreadArms [p] := by
    cases hor : p.isOr with
    | false => exact ⟨p, by simp [spreadArms_singleton_of_not_isOr hor]⟩
    | true =>
      cases h p hp with
      | @ofOr _ inner hinner _ _ =>
        obtain ⟨a, ha⟩ := exists_mem_of_ne_nil inner hinner
        exact ⟨a, by simpa [spreadArms] using ha⟩
      | _ => cases hor
  obtain ⟨a, ha⟩ := hsome
  exact ne_nil_of_mem (mem_spreadArms.mpr ⟨p, hp, ha⟩)

variable [ScalarOps]

/-- A class of arms over `levels` that can be joined and compared. -/
structure ArmClass (levels : List Extent) (A : Predicate → Prop) : Prop where
  isOver : ∀ {p}, A p → Over levels p
  ofOr : ∀ {arms : List Predicate}, arms ≠ [] → (∀ p ∈ arms, A p) → Over levels (.ofOr arms)
  join : ∀ {a b}, A a → A b → ∃ o, join a b = some o ∧
    ∀ r, o = some r → A r ∧ ∀ x, InLevels levels x → (Mem r x ↔ Mem a x ∨ Mem b x)
  spreads : ∀ {p}, A p → Spreads A p
  subsumes : ∀ {a b}, A a → A b →
    Decides (subsumes a b) (∀ x, InLevels levels x → Mem b x → Mem a x)

section Class

variable (h : ArmClass levels A)

include h

/-- Putting one more arm among the joined ones adds its region. -/
lemma joinInto_spec {arm : Predicate} (harm : A arm) (slot : ℕ) {joined : List Predicate}
    (hjoined : ∀ p ∈ joined, A p) :
    ∃ out, joinInto arm slot joined = some out ∧ out ≠ [] ∧ (∀ p ∈ out, A p) ∧
      ∀ x, InLevels levels x → ((∃ p ∈ out, Mem p x) ↔ Mem arm x ∨ ∃ p ∈ joined, Mem p x) := by
  -- a join takes one arm out of `joined`, so its length bounds the rounds
  induction hn : joined.length generalizing arm slot joined with
  | zero =>
    obtain rfl := length_eq_zero_iff.mp hn
    rw [joinInto_def]
    exact ⟨[arm], by simp, by simp, by simpa using harm, by simp⟩
  | succ n ih =>
    have hstep : ∀ x ∈ joined.zipIdx,
        ∃ o, (do return (← Predicate.join arm x.1).map (x.2, ·)) = some o ∧
          ∀ res : ℕ × Predicate, o = some res → res.1 = x.2 ∧ A res.2 ∧
            ∀ y, InLevels levels y → (Mem res.2 y ↔ Mem arm y ∨ Mem x.1 y) := by
      rintro ⟨p, i⟩ hp
      obtain ⟨o, ho, hr⟩ := h.join harm (hjoined p (fst_mem_of_mem_zipIdx hp))
      refine ⟨o.map (i, ·), by simp [ho], fun res hres => ?_⟩
      obtain ⟨r, hor, rfl⟩ := Option.map_eq_some_iff.mp hres
      exact ⟨rfl, hr r hor⟩
    obtain ⟨found, hfound, hresult⟩ := findSomeM?_eq_some_of_forall hstep
    rw [joinInto_def, hfound]
    cases found with
    | none =>
      have hperm := perm_insertIdx arm joined (Nat.min_le_right slot joined.length)
      refine ⟨_, rfl, ?_, fun p hp => ?_, fun x _ => ?_⟩
      · exact ne_nil_of_mem (hperm.mem_iff.mpr mem_cons_self)
      · rcases List.mem_cons.mp (hperm.mem_iff.mp hp) with rfl | hp
        · exact harm
        · exact hjoined p hp
      · simp [hperm.mem_iff]
    | some res =>
      obtain ⟨place, merged⟩ := res
      obtain ⟨⟨p, i⟩, hp, hplace, hA, hmem⟩ := hresult (place, merged) rfl
      obtain rfl : place = i := hplace
      obtain ⟨hi, rfl⟩ := List.getElem?_eq_some_iff.mp (mk_mem_zipIdx_iff_getElem?.mp hp)
      have hperm := getElem_cons_eraseIdx_perm hi
      have hrest : ∀ q ∈ joined.eraseIdx place, A q :=
        fun q hq => hjoined q (mem_of_mem_eraseIdx hq)
      have hlen : (joined.eraseIdx place).length = n := by
        rw [length_eraseIdx_of_lt hi, hn, Nat.add_sub_cancel]
      obtain ⟨out, hout, hne, hoA, homem⟩ := ih hA (min slot place) hrest hlen
      refine ⟨out, hout, hne, hoA, fun x hx => ?_⟩
      have hsplit : (∃ q ∈ joined, Mem q x) ↔
          ∃ q ∈ joined[place] :: joined.eraseIdx place, Mem q x :=
        exists_congr fun q => and_congr_left fun _ => hperm.mem_iff.symm
      rw [homem x hx, hmem x hx, hsplit]
      simp [or_assoc]

/-- Dropping subsumed arms keeps the region, and keeps an arm. -/
lemma withoutSubsumed_spec {flat : List Predicate} (hflat : ∀ p ∈ flat, A p) :
    ∃ reduced, withoutSubsumed flat = some reduced ∧ (∀ p ∈ reduced, p ∈ flat) ∧
      (flat ≠ [] → reduced ≠ []) ∧
      ∀ x, InLevels levels x → ((∃ p ∈ reduced, Mem p x) ↔ ∃ p ∈ flat, Mem p x) := by
  classical
  let le : Predicate → Predicate → Prop := fun a b => ∀ x, InLevels levels x → Mem a x → Mem b x
  have hkeep : ∀ x ∈ flat.zipIdx, Decides (do
      return !(← flat.zipIdx.anyM fun y => do
        if y.2 = x.2 then some false
        else if ← Predicate.subsumes y.1 x.1 then
          if y.2 < x.2 then some true else return !(← Predicate.subsumes x.1 y.1)
        else some false)) (¬Dominated le flat x.2) := by
    rintro ⟨a, i⟩ hai
    have ha := mk_mem_zipIdx_iff_getElem?.mp hai
    have haA := hflat a (fst_mem_of_mem_zipIdx hai)
    refine Decides.not (Decides.congr (Decides.anyM (P := fun y : Predicate × ℕ =>
      y.2 ≠ i ∧ le a y.1 ∧ (y.2 < i ∨ ¬le y.1 a)) ?_) ?_)
    · rintro ⟨b, j⟩ hbj
      have hbA := hflat b (fst_mem_of_mem_zipIdx hbj)
      by_cases hji : j = i
      · exact .of_false (by simp [hji]) (by simp [hji])
      · simp only [hji, if_false]
        refine (Decides.and (Q := j < i ∨ ¬le b a) (h.subsumes hbA haA) fun _ => ?_).congr
          (by simp [hji, le])
        by_cases hlt : j < i
        · exact .of_true (by simp [hlt]) (.inl hlt)
        · simp only [hlt, if_false]
          exact (h.subsumes haA hbA).not.congr (by simp [le])
    · constructor
      · rintro ⟨⟨b, j⟩, hbj, hne, hle, hlt⟩
        exact ⟨j, a, b, ha, mk_mem_zipIdx_iff_getElem?.mp hbj, hne, hle, hlt⟩
      · rintro ⟨j, a', b, ha', hb, hne, hle, hlt⟩
        obtain rfl := Option.mem_unique ha ha'
        exact ⟨(b, j), mk_mem_zipIdx_iff_getElem?.mpr hb, hne, hle, hlt⟩
  let keep := flat.zipIdx.map fun x => decide ¬Dominated le flat x.2
  have hkeeps := (mapM_congr fun x hx => (hkeep x hx).eq_decide).trans mapM_pure
  have hmem : ∀ p, p ∈ ((flat.zip keep).filter (·.2)).map (·.1) ↔
      ∃ i : ℕ, flat[i]? = some p ∧ ¬Dominated le flat i := by
    have hzip : flat.zip keep = flat.zipIdx.map fun x => (x.1, decide ¬Dominated le flat x.2) := by
      rw [← zip_map', zipIdx_map_fst]
    simp [hzip, mk_mem_zipIdx_iff_getElem?]
  have hsub : ∀ p ∈ ((flat.zip keep).filter (·.2)).map (·.1), p ∈ flat := fun p hp => by
    obtain ⟨i, hi, _⟩ := (hmem p).mp hp
    exact mem_of_getElem? hi
  have hkept : ∀ p ∈ flat, ∃ b ∈ ((flat.zip keep).filter (·.2)).map (·.1), le p b := by
    intro p hp
    obtain ⟨i, hi⟩ := mem_iff_getElem?.mp hp
    obtain ⟨k, b, hb, hk, hle⟩ := exists_not_dominated le (fun _ _ _ h => h)
      (fun _ _ _ hab hbc x hx hax => hbc x hx (hab x hx hax)) flat hi
    exact ⟨b, (hmem b).mpr ⟨k, hb, hk⟩, hle⟩
  refine ⟨_, by rw [withoutSubsumed_def, hkeeps]; rfl, hsub, fun hne => ?_, fun x hx => ?_⟩
  · obtain ⟨p, hp⟩ := exists_mem_of_ne_nil flat hne
    obtain ⟨b, hb, _⟩ := hkept p hp
    exact ne_nil_of_mem hb
  · constructor
    · exact fun ⟨p, hp, hpx⟩ => ⟨p, hsub p hp, hpx⟩
    · rintro ⟨p, hp, hpx⟩
      obtain ⟨b, hb, hle⟩ := hkept p hp
      exact ⟨b, hb, hle x hx hpx⟩

/-- **Flattening arms unites their regions.**  For any class of arms that join and compare,
`flatten_or` returns, with the union of what its arguments admit. -/
theorem flattenOr_spec (hne : arms ≠ []) (harms : ∀ p ∈ arms, Over levels p)
    (hspread : ∀ p ∈ arms, Spreads A p) :
    Returns levels (Spreads A) (flattenOr arms) (fun x => ∃ p ∈ arms, Mem p x) := by
  have hA : ∀ a ∈ spreadArms arms, A a := by
    intro a ha
    obtain ⟨p, hp, hap⟩ := mem_spreadArms.mp ha
    exact hspread p hp a hap
  have hflat := spreadArms_ne_nil hne harms
  -- what is joined so far admits what the arms taken in so far admit
  let I : List Predicate → List Predicate → Prop := fun done joined =>
    (∀ p ∈ joined, A p) ∧ (done ≠ [] → joined ≠ []) ∧
      ∀ x, InLevels levels x → ((∃ p ∈ joined, Mem p x) ↔ ∃ p ∈ done, Mem p x)
  have hinit : I [] [] := by simp [I]
  have hstep : ∀ done a rest joined, spreadArms arms = done ++ a :: rest → I done joined →
      ∃ out, joinInto a joined.length joined = some out ∧ I (done ++ [a]) out := by
    intro done a rest joined hxs hI
    obtain ⟨out, hout, hone, hoA, homem⟩ :=
      joinInto_spec h (hA a (by simp [hxs])) joined.length hI.1
    refine ⟨out, hout, hoA, fun _ => hone, fun x hx => ?_⟩
    rw [homem x hx, hI.2.2 x hx]
    simp [or_and_right, exists_or, or_comm]
  obtain ⟨joined, hjoined, hjA, hjne, hjmem⟩ := foldlM_eq_some_of_invariant I hinit hstep
  obtain ⟨reduced, hreduced, hsub, hrne, hrmem⟩ := withoutSubsumed_spec h hjA
  have hregion : ∀ x, InLevels levels x →
      ((∃ p ∈ reduced, Mem p x) ↔ ∃ p ∈ arms, Mem p x) := fun x hx => by
    rw [hrmem x hx, hjmem x hx, exists_spreadArms_iff]
  have hrA : ∀ p ∈ reduced, A p := fun p hp => hjA p (hsub p hp)
  have heq : flattenOr arms = ofReduced reduced := by
    rw [flattenOr_def]
    simp [hflat, hjoined, hreduced]
  rw [heq]
  match reduced, hrne (hjne hflat), hregion, hrA with
  | [one], _, hregion, hrA =>
    have hone := hrA one (by simp)
    exact ⟨one, rfl, h.isOver hone, h.spreads hone, fun x hx => by simpa using hregion x hx⟩
  | a :: b :: rest, hne, hregion, hrA =>
    refine ⟨.ofOr (a :: b :: rest), rfl, h.ofOr hne hrA, ?_, fun x hx => ?_⟩
    · simpa [Spreads, spreadArms] using hrA
    · rw [mem_ofOr, hregion x hx]

end Class

end Predicate

end Cambra
