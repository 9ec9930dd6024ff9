import Cambra.Tiling.Components

/-!
# The two componentwise shapes

Records and qualification, as instances of `Shape`.  A record predicate over a record level splits
a key into its fields.  A predicate over several levels splits a path into the path above and the
innermost key; a predicate that names no enclosing path stands there for one that admits them all.

`Arm levels` is the class of predicates that may stand in an `Or` over `levels`.
-/

namespace Cambra

open List hiding getElem?_eq_some_iff

namespace Predicate

/-! ## Records -/

variable {m : List (String × Predicate)} {levels : List Extent} {p : Predicate}
  {n : List (String × Predicate)} {x : List KeyPoint} {q : Predicate}

section Record

variable {own : Extent} {es : List (String × Extent)}

/-- What building a record predicate gives: a record predicate, or nothing. -/
def RecordArm (own : Extent) (p : Predicate) : Prop :=
  Over [own] p ∧ (p = .ff ∨ ∃ m, p = .ofRecord m)

/-- The fields of a key. -/
def splitRecord (es : List (String × Extent)) : List KeyPoint → List (List KeyPoint)
  | .record f :: _ => es.map fun ke => [f ke.1]
  | _ => []

variable {names : List String}

/-- Field points given one by one are the fields of one key. -/
lemma exists_fields (hnames : names.Nodup) {xs : List KeyPoint} (hlen : names.length = xs.length) :
    ∃ f : String → KeyPoint, names.map f = xs := by
  induction names generalizing xs with
  | nil => exact ⟨fun _ => .unit, by simpa using hlen.symm⟩
  | cons name names ih =>
    obtain ⟨x, xs, rfl⟩ := exists_cons_of_length_eq_add_one hlen.symm
    obtain ⟨hname, hnodup⟩ := nodup_cons.mp hnames
    obtain ⟨f, rfl⟩ := ih hnodup (by simpa using hlen)
    refine ⟨fun k => if k = name then x else f k, ?_⟩
    simp only [map_cons, if_true, List.cons.injEq, true_and]
    refine map_congr_left fun k hk => if_neg ?_
    rintro rfl
    exact hname hk

/-- A record predicate admits the keys whose fields its components admit. -/
lemma mem_ofRecord_iff (hkeys : m.map (·.1) = es.map (·.1)) (hown : own.resolve = .record es)
    (hx : InLevels [own] x) :
    Mem (.ofRecord m) x ↔ MemComponents (m.map (·.2)) (splitRecord es x) := by
  obtain ⟨k, rfl, hk⟩ := hx.exists_singleton
  obtain ⟨f, rfl, _⟩ := hk.exists_record hown
  have hsplit : splitRecord es [.record f] = m.map fun kp => [f kp.1] := by
    calc splitRecord es [.record f] = (es.map (·.1)).map fun k => [f k] := by simp [splitRecord]
      _ = m.map fun kp => [f kp.1] := by simp [← hkeys]
  rw [mem_ofRecord, hsplit, MemComponents, forall₂_map_left_iff, forall₂_map_right_iff,
    forall₂_same]
  exact ⟨fun h kp hkp => h kp.1 kp.2 hkp, fun h k p hp => h (k, p) hp⟩

lemma over_fields_iff (hasc : KeysAscend es) (hkeys : m.map (·.1) = es.map (·.1)) :
    List.Forall₂ Over (es.map fun ke => [ke.2]) (m.map (·.2)) ↔
      ∀ k p e, (k, p) ∈ m → es.lookup k = some e → Over [e] p := by
  have hm : KeysAscend m := by rwa [KeysAscend, hkeys]
  rw [forall₂_map_left_iff, forall₂_map_right_iff, forall₂_iff_getElem?]
  have hlen : es.length = m.length := by simpa using (congrArg List.length hkeys).symm
  have hat : ∀ (i : ℕ) ke kp, es[i]? = some ke → m[i]? = some kp → kp.1 = ke.1 := by
    intro i ke kp hke hkp
    have := congrArg (·[i]?) hkeys
    simpa [hke, hkp] using this
  constructor
  · rintro ⟨_, h⟩ k p e hp he
    obtain ⟨i, hi⟩ := mem_iff_getElem?.mp hp
    have hlt : i < es.length := hlen ▸ (List.getElem?_eq_some_iff.mp hi).1
    have hke := getElem?_eq_getElem hlt
    have hfst : k = es[i].1 := hat i _ _ hke hi
    have hlook : es.lookup es[i].1 = some es[i].2 :=
      (lookup_eq_some_iff_mem hasc.nodup).mpr (getElem_mem hlt)
    rw [← hfst, he] at hlook
    rw [Option.some.inj hlook]
    exact h i _ _ hke hi
  · refine fun h => ⟨hlen, fun i ke kp hke hkp => ?_⟩
    refine h kp.1 kp.2 ke.2 (mem_of_getElem? hkp) ?_
    rw [hat i ke kp hke hkp]
    exact (lookup_eq_some_iff_mem hasc.nodup).mpr (mem_of_getElem? hke)

/-- **Record predicates over a record level** are componentwise. -/
theorem recordShape (hown : own.resolve = .record es) (hasc : KeysAscend es) :
    Shape [own] (.record (es.map (·.1))) (es.map fun ke => [ke.2]) (RecordArm own)
      (splitRecord es) where
  ff := ⟨.ff, .inl rfl⟩
  isOver h := h.1
  split_in := by
    intro x hx
    obtain ⟨k, rfl, hk⟩ := hx.exists_singleton
    obtain ⟨f, rfl, hf⟩ := hk.exists_record hown
    rw [splitRecord, InComponents, forall₂_map_left_iff, forall₂_map_right_iff, forall₂_same]
    exact fun ke hke => inLevels_singleton.mpr
      (hf ke.1 ke.2 ((lookup_eq_some_iff_mem hasc.nodup).mpr hke))
  split_surj := by
    intro xs hxs
    have hsingle : ∃ ys : List KeyPoint, xs = ys.map fun y => [y] := by
      rw [InComponents, forall₂_map_left_iff] at hxs
      clear hown hasc
      induction hxs with
      | nil => exact ⟨[], rfl⟩
      | cons hx _ ih =>
        obtain ⟨y, rfl, _⟩ := hx.exists_singleton
        obtain ⟨ys, rfl⟩ := ih
        exact ⟨y :: ys, rfl⟩
    obtain ⟨ys, rfl⟩ := hsingle
    have hlen : (es.map (·.1)).length = ys.length := by simpa using hxs.length_eq
    obtain ⟨f, rfl⟩ := exists_fields hasc.nodup hlen
    refine ⟨[.record f], ?_, by simp [splitRecord]⟩
    rw [inLevels_singleton, ← inExtent_resolve_iff, hown]
    refine .record fun k e he => ?_
    simp only [InComponents, map_map, forall₂_map_left_iff, forall₂_map_right_iff,
      forall₂_same] at hxs
    exact inLevels_singleton.mp (hxs (k, e) (mem_of_lookup_eq_some he))
  build := by
    intro cs hcs hany
    have hlen : (es.map (·.1)).length = cs.length := by simpa using hcs.length_eq
    have hkeys : ((es.map (·.1)).zip cs).map (·.1) = es.map (·.1) := map_fst_zip hlen.le
    have hsnd : ((es.map (·.1)).zip cs).map (·.2) = cs := map_snd_zip hlen.ge
    have hover : Over [own] (.ofRecord ((es.map (·.1)).zip cs)) := by
      refine .ofRecord hown (by rwa [KeysAscend, hkeys]) hkeys ?_
      rwa [← over_fields_iff hasc hkeys, hsnd]
    refine ⟨_, by simp [Componentwise.build, hany], ⟨hover, .inr ⟨_, rfl⟩⟩, fun x hx => ?_⟩
    rw [mem_ofRecord_iff hkeys hown hx, hsnd]

lemma mapM_lookup (hkeys : m.map (·.1) = names) (hnodup : names.Nodup) :
    names.mapM (fun n => m.lookup n) = some (m.map (·.2)) := by
  subst hkeys
  rw [mapM_map]
  have hstep : ∀ kp ∈ m, ∃ p, m.lookup kp.1 = some p ∧ kp.2 = p := fun kp hkp =>
    ⟨kp.2, (lookup_eq_some_iff_mem hnodup).mpr hkp, rfl⟩
  obtain ⟨ps, hps, hall⟩ := mapM_eq_some_of_forall hstep
  refine hps.trans (congrArg some ?_)
  exact (forall₂_eq_eq_eq ▸ forall₂_map_left_iff.mpr hall : m.map (·.2) = ps).symm

lemma componentwise_of_records (hm : m.map (·.1) = es.map (·.1)) (hn : n.map (·.1) = es.map (·.1))
    (hasc : KeysAscend es) :
    Componentwise.of (.ofRecord m) (.ofRecord n) =
      some (some (.record (es.map (·.1)), m.map (·.2), n.map (·.2))) := by
  have hlen : m.length = n.length := by simpa using congrArg List.length (hm.trans hn.symm)
  have hall : n.all (fun kp => (m.lookup kp.1).isSome) = true := by
    rw [all_eq_true]
    rintro ⟨k, p⟩ hp
    obtain ⟨q, hq⟩ := exists_lookup_of_keys_eq (hn.trans hm.symm) hp
    simp [hq]
  simp only [Componentwise.of, hlen, hall, and_self, if_true, hm, mapM_lookup hm hasc.nodup,
    mapM_lookup hn hasc.nodup]
  rfl

end Record

/-! ## Qualification -/

/-- The predicate may stand in an `Or` over `levels`. -/
def Arm (levels : List Extent) (p : Predicate) : Prop :=
  Over levels p ∧ (p.isOr = true → p.qualifies = false)

lemma Over.arm (hp : Over levels p) (hor : p.isOr = false) : Arm levels p := ⟨hp, by simp [hor]⟩

/-- The arms of any predicate may stand in an `Or`. -/
lemma Over.spreads (hp : Over levels p) : Spreads (Arm levels) p := by
  cases hor : p.isOr with
  | false => exact .of_not_isOr hor (hp.arm hor)
  | true =>
    cases hp with
    | @ofOr _ arms hne h hnest =>
      intro a ha
      have ha : a ∈ arms := by simpa [spreadArms] using ha
      exact ⟨h a ha, hnest a ha⟩
    | _ => cases hor

lemma Arm.ofOr {arms : List Predicate} (hne : arms ≠ []) (h : ∀ p ∈ arms, Arm levels p) :
    Over levels (.ofOr arms) :=
  .ofOr hne (fun p hp => (h p hp).1) fun p hp => (h p hp).2

/-- The predicate is a `Qualified`. -/
def isQualified : Predicate → Bool
  | .ofQualified _ _ => true
  | _ => false

section Qualified

variable {own : Extent} {above : List Extent}

lemma qualifies_eq_false (hor : p.isOr = true → p.qualifies = false) (hq : p.isQualified = false) :
    p.qualifies = false := by
  cases p with
  | ofOr arms => exact hor rfl
  | ofQualified e h => cases hq
  | _ => simp [qualifies]

lemma Arm.not_qualifies (hp : Arm levels p) (hq : p.isQualified = false) : p.qualifies = false :=
  qualifies_eq_false hp.2 hq

/-- The path above and the innermost key. -/
def splitPath : List KeyPoint → List (List KeyPoint)
  | [] => []
  | x :: xs => [xs, [x]]

/-- The two components an arm is read through. -/
def halves (p : Predicate) : List Predicate := [p.splitQualification.1, p.splitQualification.2]

lemma Arm.halves_over (hne : above ≠ []) (hp : Arm (own :: above) p) :
    Over above p.splitQualification.1 ∧ Over [own] p.splitQualification.2 := by
  cases hq : p.isQualified with
  | true =>
    cases hp.1 with
    | ofQualified _ he hh => exact ⟨he, hh⟩
    | _ => cases hq
  | false =>
    have hsplit : p.splitQualification = (.tt, p) := by
      cases p <;> simp_all [splitQualification, isQualified]
    rw [hsplit]
    obtain ⟨e, es, rfl⟩ := exists_cons_of_ne_nil hne
    exact ⟨.tt, hp.1.own (hp.not_qualifies hq)⟩

lemma Arm.mem_iff (hp : Arm (own :: above) p) (hx : InLevels (own :: above) x) :
    Mem p x ↔ MemComponents p.halves (splitPath x) := by
  obtain ⟨x, xs, rfl, _, _⟩ := hx.exists_cons
  simp only [halves, splitPath, MemComponents, forall₂_cons, forall₂_nil_left_iff, and_true]
  cases hq : p.isQualified with
  | true =>
    cases p with
    | ofQualified e h => exact mem_ofQualified
    | _ => cases hq
  | false =>
    have hsplit : p.splitQualification = (.tt, p) := by
      cases p <;> simp_all [splitQualification, isQualified]
    simp [hsplit, mem_cons_iff (hp.not_qualifies hq)]

/-- **Predicates over several levels** are componentwise: enclosing paths and keys. -/
theorem qualifiedShape (hne : above ≠ []) :
    Shape (own :: above) .qualified [above, [own]] (Arm (own :: above)) splitPath where
  ff := ⟨.ff, by simp [isOr]⟩
  isOver h := h.1
  split_in := by
    intro x hx
    obtain ⟨x, xs, rfl, hx, hxs⟩ := hx.exists_cons
    exact .cons hxs (.cons (inLevels_singleton.mpr hx) .nil)
  split_surj := by
    intro xs hxs
    rcases hxs with _ | ⟨hxs, _ | ⟨hx, ⟨⟩⟩⟩
    obtain ⟨x, rfl, hin⟩ := InLevels.exists_singleton hx
    exact ⟨x :: _, .cons hin hxs, rfl⟩
  build := by
    intro cs hcs hany
    rcases hcs with _ | ⟨he, _ | ⟨hh, ⟨⟩⟩⟩
    rename_i enclosing here
    have hfalse : (enclosing.isFalse || here.isFalse) = false := by simpa using hany
    have hmem : ∀ x, InLevels (own :: above) x →
        (MemComponents [enclosing, here] (splitPath x) ↔ Mem (.ofQualified enclosing here) x) := by
      intro x hx
      obtain ⟨x, xs, rfl, _, _⟩ := hx.exists_cons
      simp [splitPath, MemComponents, mem_ofQualified]
    simp only [Componentwise.build, hany, qualified, hfalse, Bool.false_eq_true, if_false]
    split_ifs with htrue
    · refine ⟨here, rfl, ⟨hh.under above, fun _ => hh.not_qualifies⟩, fun x hx => ?_⟩
      rw [hmem x hx]
      obtain ⟨x, xs, rfl, _, hxs⟩ := hx.exists_cons
      simp [mem_ofQualified, mem_cons_iff hh.not_qualifies, mem_of_isTrue he htrue hxs]
    · exact ⟨_, rfl, ⟨.ofQualified hne he hh, by simp [isOr]⟩, fun x hx => (hmem x hx).symm⟩

lemma componentwise_of_qualified (h : p.isQualified = true ∨ q.isQualified = true) :
    Componentwise.of p q = some (some (.qualified, p.halves, q.halves)) := by
  cases p <;> cases q <;> simp_all [Componentwise.of, isQualified, halves]

end Qualified

/-! ## Pairs read component by component -/

section Reads

variable [ScalarOps]

/-- `a` and `b` are componentwise predicates of one shape over `levels`, whose components have
exact algebras. -/
def Reads (levels : List Extent) (A : Predicate → Prop) (a b : Predicate) : Prop :=
  ∃ (shape : Componentwise) (Ls : List (List Extent)) (split : List KeyPoint → List (List KeyPoint))
    (pairs : List (Predicate × Predicate)),
    Shape levels shape Ls A split ∧ PairsOver Ls pairs ∧
    Componentwise.of a b = some (some (shape, pairs.map (·.1), pairs.map (·.2))) ∧
    (∀ x, InLevels levels x → (Mem a x ↔ MemComponents (pairs.map (·.1)) (split x))) ∧
    ∀ x, InLevels levels x → (Mem b x ↔ MemComponents (pairs.map (·.2)) (split x))

lemma Reads.join_spec {A : Predicate → Prop} {a b : Predicate} (h : Reads levels A a b) :
    ∃ o, join a b = some o ∧ ∀ r, o = some r → A r ∧
      ∀ x, InLevels levels x → (Mem r x ↔ Mem a x ∨ Mem b x) := by
  obtain ⟨shape, Ls, split, pairs, hs, hpairs, hof, ha, hb⟩ := h
  obtain ⟨o, ho, hr⟩ := hs.join_spec hpairs
  refine ⟨o, by rw [join_def, hof]; exact ho, fun r hro => ⟨(hr r hro).1, fun x hx => ?_⟩⟩
  rw [(hr r hro).2 x hx, ha x hx, hb x hx]

variable {own : Extent}

/-- Two record predicates over a record level read field by field. -/
lemma reads_records {es : List (String × Extent)} (hown : own.resolve = .record es)
    (hasc : KeysAscend es) (hes : ∀ k e, es.lookup k = some e → Algebra [e])
    (hm : Over [own] (.ofRecord m)) (hn : Over [own] (.ofRecord n)) :
    Reads [own] (RecordArm own) (.ofRecord m) (.ofRecord n) := by
  have hfields : ∀ {m : List (String × Predicate)}, Over [own] (.ofRecord m) →
      m.map (·.1) = es.map (·.1) ∧ List.Forall₂ Over (es.map fun ke => [ke.2]) (m.map (·.2)) := by
    intro m hm
    cases hm with
    | ofRecord hown' _ hkeys hover =>
      obtain rfl : es = _ := by simpa [hown] using hown'
      exact ⟨hkeys, (over_fields_iff hasc hkeys).mpr hover⟩
  obtain ⟨hmkeys, hmover⟩ := hfields hm
  obtain ⟨hnkeys, hnover⟩ := hfields hn
  have hlen : (m.map (·.2)).length = (n.map (·.2)).length :=
    hmover.length_eq.symm.trans hnover.length_eq
  have hfst : ((m.map (·.2)).zip (n.map (·.2))).map (·.1) = m.map (·.2) := map_fst_zip hlen.le
  have hsnd : ((m.map (·.2)).zip (n.map (·.2))).map (·.2) = n.map (·.2) := map_snd_zip hlen.ge
  refine ⟨_, _, _, (m.map (·.2)).zip (n.map (·.2)), recordShape hown hasc, ?_, ?_, ?_, ?_⟩
  · refine forall₂_iff_getElem?.mpr ⟨?_, fun i L pq hL hpq => ?_⟩
    · rw [length_zip, ← hlen, Nat.min_self, hmover.length_eq]
    · rw [getElem?_zip_eq_some] at hpq
      have hmi := (forall₂_iff_getElem?.mp hmover).2 i L pq.1 hL hpq.1
      have hni := (forall₂_iff_getElem?.mp hnover).2 i L pq.2 hL hpq.2
      obtain ⟨⟨k, e⟩, he, rfl⟩ := mem_map.mp (mem_of_getElem? hL)
      exact ⟨hes k e ((lookup_eq_some_iff_mem hasc.nodup).mpr he), hmi, hni⟩
  · rw [hfst, hsnd]
    exact componentwise_of_records hmkeys hnkeys hasc
  · rw [hfst]
    exact fun x hx => mem_ofRecord_iff hmkeys hown hx
  · rw [hsnd]
    exact fun x hx => mem_ofRecord_iff hnkeys hown hx

/-- Two arms over several levels, one of which names enclosing paths, read in two halves. -/
lemma reads_qualified {above : List Extent} (hne : above ≠ []) (habove : Algebra above)
    (hown : Algebra [own]) (hp : Arm (own :: above) p) (hq : Arm (own :: above) q)
    (h : p.isQualified = true ∨ q.isQualified = true) :
    Reads (own :: above) (Arm (own :: above)) p q := by
  refine ⟨_, _, _, [(p.splitQualification.1, q.splitQualification.1),
    (p.splitQualification.2, q.splitQualification.2)], qualifiedShape hne, ?_,
    componentwise_of_qualified h, fun x hx => hp.mem_iff hx, fun x hx => hq.mem_iff hx⟩
  have hpo := hp.halves_over hne
  have hqo := hq.halves_over hne
  exact .cons ⟨habove, hpo.1, hqo.1⟩ (.cons ⟨hown, hpo.2, hqo.2⟩ .nil)

/-- The predicate is neither constant nor a union of arms. -/
def isPlain : Predicate → Bool
  | .tt | .ff | .ofOr _ => false
  | _ => true

section Fallthrough

variable {a b : Predicate} {shape : Componentwise} {first second : List Predicate}
  (hof : Componentwise.of a b = some (some (shape, first, second)))

include hof

lemma intersect_eq_build (ha : a.isPlain = true) (hb : b.isPlain = true) : intersect a b =
    (do shape.build (← (first.zip second).mapM fun pq => intersect pq.1 pq.2)) := by
  rw [intersect_def]
  cases a <;> cases b <;>
    first
    | simp [isPlain] at ha hb; done
    | simp [Componentwise.of] at hof; done
    | simp only [hof]; rfl

lemma union_eq_join (ha : a.isPlain = true) (hb : b.isPlain = true) : union a b = (do
      match ← shape.join first second with
      | some one => some one
      | none => flattenOr [a, b]) := by
  rw [union_def]
  cases a <;> cases b <;>
    first
    | simp [isPlain] at ha hb; done
    | simp [Componentwise.of] at hof; done
    | simp only [hof]; rfl

lemma minusByShape_eq_staircase (ha : a.isOr = false) (hb : b.isOr = false) :
    minusByShape a b = shape.minus first second := by
  rw [minusByShape_def]
  cases a <;> cases b <;>
    first
    | simp [isOr] at ha hb; done
    | simp [Componentwise.of] at hof; done
    | simp only [hof]; rfl

lemma subsumes_eq_allM (ha : a.isOr = false) (hb : b.isOr = false) (hfalse : b.isFalse = false)
    (htrue : a.isTrue = false) :
    subsumes a b = (first.zip second).allM fun pq => subsumes pq.1 pq.2 := by
  rw [subsumes_def]
  simp only [hfalse, htrue, Bool.false_eq_true, if_false]
  cases a <;> cases b <;>
    first
    | simp [isOr] at ha hb; done
    | simp [Componentwise.of] at hof; done
    | simp only [hof]; rfl

end Fallthrough

section Specs

variable {A : Predicate → Prop} {a b : Predicate} (h : Reads levels A a b)

include h

lemma Reads.intersect_spec (ha : a.isPlain = true) (hb : b.isPlain = true) :
    Returns levels A (intersect a b) (fun x => Mem a x ∧ Mem b x) := by
  obtain ⟨shape, Ls, split, pairs, hs, hpairs, hof, hamem, hbmem⟩ := h
  obtain ⟨cs, hcs, hover, hmem⟩ := meet_spec hpairs
  rw [intersect_eq_build hof ha hb, zip_map_fst_snd, hcs]
  refine (hs.build_spec hover).congr fun x hx => ?_
  rw [hmem _ (hs.split_in hx), hamem x hx, hbmem x hx]

lemma Reads.union_spec (hA : ArmClass levels A) (haA : A a) (hbA : A b) (ha : a.isPlain = true)
    (hb : b.isPlain = true) :
    Returns levels (Spreads A) (union a b) (fun x => Mem a x ∨ Mem b x) := by
  obtain ⟨shape, Ls, split, pairs, hs, hpairs, hof, hamem, hbmem⟩ := h
  obtain ⟨o, ho, hr⟩ := hs.join_spec hpairs
  rw [union_eq_join hof ha hb, ho]
  cases o with
  | none =>
    have harms : ∀ p ∈ [a, b], A p := by simp [haA, hbA]
    refine (flattenOr_spec hA (by simp) (fun p hp => hA.isOver (harms p hp))
      fun p hp => hA.spreads (harms p hp)).congr fun x _ => by simp
  | some r =>
    obtain ⟨hrA, hrmem⟩ := hr r rfl
    refine ⟨r, rfl, hA.isOver hrA, hA.spreads hrA, fun x hx => ?_⟩
    exact (hrmem x hx).trans (or_congr (hamem x hx) (hbmem x hx)).symm

lemma Reads.minusByShape_spec (hA : ArmClass levels A) (ha : a.isOr = false) (hb : b.isOr = false) :
    Returns levels (Spreads A) (minusByShape a b) (fun x => Mem a x ∧ ¬Mem b x) := by
  obtain ⟨shape, Ls, split, pairs, hs, hpairs, hof, hamem, hbmem⟩ := h
  rw [minusByShape_eq_staircase hof ha hb]
  refine (hs.minus_spec hA hpairs).congr fun x hx => ?_
  rw [hamem x hx, hbmem x hx]

lemma Reads.subsumes_spec (ha : a.isOr = false) (hb : b.isOr = false) (hbo : Over levels b)
    (hfalse : b.isFalse = false) (htrue : a.isTrue = false) :
    Decides (subsumes a b) (∀ x, InLevels levels x → Mem b x → Mem a x) := by
  obtain ⟨shape, Ls, split, pairs, hs, hpairs, hof, hamem, hbmem⟩ := h
  have hne : b.asBool ≠ some false := fun h => by simp [isFalse_iff_asBool.mpr h] at hfalse
  obtain ⟨y, hy, hmem⟩ := exists_mem_of_not_isFalse hbo hne
  rw [subsumes_eq_allM hof ha hb hfalse htrue, zip_map_fst_snd]
  refine (hs.contains_spec hpairs hy ((hbmem y hy).mp hmem)).congr ?_
  refine forall₂_congr fun x hx => ?_
  rw [hamem x hx, hbmem x hx]

end Specs

end Reads

end Predicate

end Cambra
