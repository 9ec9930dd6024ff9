import Cambra.Tiling.Arms

/-!
# Componentwise predicates

A record predicate is the product of its fields' predicates, a qualified predicate the product of
a region of enclosing paths and a region of keys.  The operations on both go component by
component (`Componentwise` in the source): the meet is the product of meets, the join exists where
at most one component differs, the difference is a staircase of products.

Here these are products of regions over any list of component levels `Ls`, given that the algebra
of each component is exact (`Algebra`).  `Shape` says how a componentwise predicate over some
levels is read through its components; it has two instances, one for records and one for
qualification.
-/

namespace Cambra

open List

namespace Predicate

lemma zip_map_fst_snd (pairs : List (Predicate × Predicate)) :
    (pairs.map (·.1)).zip (pairs.map (·.2)) = pairs := by
  rw [zip_map']
  simp

variable [ScalarOps]

/-- **The predicate operations are exact over `levels`**: they return, and denote the set
operations. -/
structure Algebra (levels : List Extent) : Prop where
  intersect : ∀ {p q}, Over levels p → Over levels q →
    Returns levels (fun _ => True) (intersect p q) (fun x => Mem p x ∧ Mem q x)
  union : ∀ {p q}, Over levels p → Over levels q →
    Returns levels (fun _ => True) (union p q) (fun x => Mem p x ∨ Mem q x)
  minus : ∀ {p q}, Over levels p → Over levels q →
    Returns levels (fun _ => True) (minus p q) (fun x => Mem p x ∧ ¬Mem q x)
  subsumes : ∀ {p q}, Over levels p → Over levels q →
    Decides (subsumes p q) (∀ x, InLevels levels x → Mem q x → Mem p x)

lemma Algebra.sameRegion {levels : List Extent} (h : Algebra levels) {p q : Predicate}
    (hp : Over levels p) (hq : Over levels q) :
    Decides (sameRegion p q) (∀ x, InLevels levels x → (Mem p x ↔ Mem q x)) := by
  rw [Predicate.sameRegion_def]
  by_cases heq : p = q
  · exact .of_true (by simp [heq]) (by simp [heq])
  · simp only [heq, if_false]
    refine ((h.subsumes hp hq).and fun _ => h.subsumes hq hp).congr ?_
    exact ⟨fun h x hx => ⟨h.2 x hx, h.1 x hx⟩,
      fun h => ⟨fun x hx => (h x hx).mpr, fun x hx => (h x hx).mp⟩⟩

/-- Pairs of predicates over the component levels, each with an exact algebra. -/
def PairsOver (Ls : List (List Extent)) (pairs : List (Predicate × Predicate)) : Prop :=
  List.Forall₂ (fun L pq => Algebra L ∧ Over L pq.1 ∧ Over L pq.2) Ls pairs

/-- A tuple of points, one for each component. -/
abbrev InComponents (Ls : List (List Extent)) (xs : List (List KeyPoint)) : Prop :=
  List.Forall₂ InLevels Ls xs

/-- The product of the components holds the tuple. -/
abbrev MemComponents (cs : List Predicate) (xs : List (List KeyPoint)) : Prop :=
  List.Forall₂ Mem cs xs

variable {Ls : List (List Extent)} {pairs : List (Predicate × Predicate)}
  {xs : List (List KeyPoint)}

/-- **The meet of two products** is the product of the meets. -/
lemma meet_spec (h : PairsOver Ls pairs) :
    ∃ rs, pairs.mapM (fun pq => intersect pq.1 pq.2) = some rs ∧ List.Forall₂ Over Ls rs ∧
      ∀ xs, InComponents Ls xs → (MemComponents rs xs ↔
          MemComponents (pairs.map (·.1)) xs ∧ MemComponents (pairs.map (·.2)) xs) := by
  induction h with
  | nil => exact ⟨[], rfl, .nil, fun xs hxs => by cases hxs; simp⟩
  | @cons L pq Ls pairs hpq _ ih =>
    obtain ⟨rs, hrs, hover, hmem⟩ := ih
    obtain ⟨r, hr, hrover, _, hrmem⟩ := hpq.1.intersect hpq.2.1 hpq.2.2
    refine ⟨r :: rs, by simp [mapM_cons, hr, hrs], .cons hrover hover, fun xs hxs => ?_⟩
    cases hxs with
    | cons hx hxs =>
      simp only [map_cons, forall₂_cons, hrmem _ hx, hmem _ hxs]
      tauto

/-- **Containment of products** is decided component by component, where the contained one has a
point in every component. -/
lemma contains_spec (h : PairsOver Ls pairs)
    (hne : ∃ xs, InComponents Ls xs ∧ MemComponents (pairs.map (·.2)) xs) :
    Decides (pairs.allM fun pq => subsumes pq.1 pq.2)
      (∀ xs, InComponents Ls xs → MemComponents (pairs.map (·.2)) xs →
        MemComponents (pairs.map (·.1)) xs) := by
  induction h with
  | nil => exact .of_true rfl fun xs hxs _ => by cases hxs; exact .nil
  | @cons L pq Ls pairs hpq _ ih =>
    obtain ⟨ys, hys, hmem⟩ := hne
    rcases hys with _ | ⟨hy, hys⟩
    simp only [map_cons, forall₂_cons] at hmem
    rw [allM_cons]
    refine ((hpq.1.subsumes hpq.2.1 hpq.2.2).and fun _ => ih ⟨_, hys, hmem.2⟩).congr ?_
    constructor
    · rintro ⟨hhead, htail⟩ xs hxs hq
      rcases hxs with _ | ⟨hx, hxs⟩
      simp only [map_cons, forall₂_cons] at hq ⊢
      exact ⟨hhead _ hx hq.1, htail _ hxs hq.2⟩
    · intro h
      -- complete one component by the point the others have
      refine ⟨fun x hx hq => ?_, fun xs hxs hq => ?_⟩
      · exact (forall₂_cons.mp (h _ (.cons hx hys) (.cons hq hmem.2))).1
      · exact (forall₂_cons.mp (h _ (.cons hy hxs) (.cons hmem.1 hq))).2

lemma PairsOver.at_ (h : PairsOver Ls pairs) {i : ℕ} {pq : Predicate × Predicate}
    (hi : pairs[i]? = some pq) : ∃ L, Ls[i]? = some L ∧ Algebra L ∧ Over L pq.1 ∧ Over L pq.2 :=
  forall₂_getElem? h.flip hi

omit [ScalarOps] in
lemma memComponents_iff {cs : List Predicate} (hcs : cs.length = Ls.length)
    (hxs : InComponents Ls xs) :
    MemComponents cs xs ↔ ∀ (i : ℕ) c x, cs[i]? = some c → xs[i]? = some x → Mem c x := by
  rw [MemComponents, forall₂_iff_getElem?]
  simp [hcs, hxs.length_eq]

omit [ScalarOps] in
lemma memComponents_map_iff {f : Predicate × Predicate → Predicate}
    (hlen : Ls.length = pairs.length) (hxs : InComponents Ls xs) :
    MemComponents (pairs.map f) xs ↔
      ∀ (i : ℕ) pq x, pairs[i]? = some pq → xs[i]? = some x → Mem (f pq) x := by
  rw [memComponents_iff (by simp [hlen]) hxs]
  simp only [getElem?_map, Option.map_eq_some_iff]
  constructor
  · intro h i pq x hpq hx
    exact h i _ x ⟨pq, hpq, rfl⟩ hx
  · rintro h i _ x ⟨pq, hpq, rfl⟩ hx
    exact h i pq x hpq hx

omit [ScalarOps] in
lemma inComponents_at (h : InComponents Ls xs) {i : ℕ} {L : List Extent} {x : List KeyPoint}
    (hL : Ls[i]? = some L) (hx : xs[i]? = some x) : InLevels L x :=
  (forall₂_iff_getElem?.mp h).2 i L x hL hx

/-- Products whose components are the same two by two are one region. -/
lemma memComponents_congr (h : PairsOver Ls pairs)
    (hsame : ∀ pq ∈ pairs, Predicate.sameRegion pq.1 pq.2 ≠ some false)
    (hxs : InComponents Ls xs) :
    MemComponents (pairs.map (·.1)) xs ↔ MemComponents (pairs.map (·.2)) xs := by
  induction h generalizing xs with
  | nil => rfl
  | cons hpq _ ih =>
    cases hxs with
    | cons hx hxs =>
      rw [forall_mem_cons] at hsame
      obtain ⟨b, hb, hiff⟩ := hpq.1.sameRegion hpq.2.1 hpq.2.2
      have hagree := hiff.mp (by simpa [hb] using hsame.1) _ hx
      simp [hagree, ih hsame.2 hxs]

/-- **The join of two products**: where at most one component differs, the product with the union
of that component; otherwise none. -/
lemma joinComponents_spec (h : PairsOver Ls pairs) (shape : Componentwise) :
    shape.join (pairs.map (·.1)) (pairs.map (·.2)) = some none ∨ ∃ cs, List.Forall₂ Over Ls cs ∧
        shape.join (pairs.map (·.1)) (pairs.map (·.2)) = (shape.build cs).map some ∧
        ∀ xs, InComponents Ls xs → (MemComponents cs xs ↔
            MemComponents (pairs.map (·.1)) xs ∨ MemComponents (pairs.map (·.2)) xs) := by
  have hfilter : (pairs.zipIdx.filterM fun x => do return !(← Predicate.sameRegion x.1.1 x.1.2)) =
      some (pairs.zipIdx.filter fun x => Predicate.sameRegion x.1.1 x.1.2 = some false) := by
    refine filterM_eq_some_of_forall fun x hx => ?_
    obtain ⟨L, _, hAlg, hp, hq⟩ := h.at_ (mem_zipIdx_iff_getElem?.mp hx)
    obtain ⟨b, hb, _⟩ := hAlg.sameRegion hp hq
    exact ⟨!b, by simp [hb], by simp [hb]⟩
  have hfst {Ls pairs} (h : PairsOver Ls pairs) : List.Forall₂ Over Ls (pairs.map (·.1)) :=
    forall₂_map_right_iff.mpr (h.imp fun _ _ h => h.2.1)
  have hsame {l : List (Predicate × Predicate)} {k : ℕ} (h : ∀ x ∈ l.zipIdx k,
      ¬decide (Predicate.sameRegion x.1.1 x.1.2 = some false) = true) (pq) (hpq : pq ∈ l) :
      Predicate.sameRegion pq.1 pq.2 ≠ some false := by
    rw [← zipIdx_map_fst k l] at hpq
    obtain ⟨x, hx, rfl⟩ := mem_map.mp hpq
    simpa using h x hx
  rw [joinComponents_def, zip_map_fst_snd, hfilter]
  rcases hd : pairs.zipIdx.filter _ with _ | ⟨x, _ | ⟨y, rest⟩⟩
  · -- the two products are one region
    refine .inr ⟨pairs.map (·.1), hfst h, ?_, fun xs hxs => ?_⟩
    · cases shape.build (pairs.map (·.1)) <;> rfl
    · rw [← memComponents_congr h (hsame (filter_eq_nil_iff.mp hd)) hxs, or_self]
  · -- the products differ in one component, which takes the union of the two
    obtain ⟨_, _, hz, hbefore, -, hafter⟩ := filter_eq_cons_iff.mp hd
    obtain ⟨before, _, rfl, rfl, htail⟩ := zipIdx_eq_append_iff.mp hz
    obtain ⟨pq, after, rfl, rfl, rfl⟩ := zipIdx_eq_cons_iff.mp htail.symm
    obtain ⟨Ls₁, _, rfl, h₁, hrest⟩ := exists_of_forall₂_append h
    obtain ⟨L, Ls₂, hpq, h₂, rfl⟩ := forall₂_cons_right_iff.mp hrest
    obtain ⟨u, hu, huover, _, humem⟩ := hpq.1.union hpq.2.1 hpq.2.2
    refine .inr ⟨before.map (·.1) ++ u :: after.map (·.1),
      rel_append (hfst h₁) (.cons huover (hfst h₂)), ?_, fun xs hxs => ?_⟩
    · simp [hu]
      cases shape.build (before.map (·.1) ++ u :: after.map (·.1)) <;> rfl
    · obtain ⟨xs₁, _, rfl, hxs₁, hrest⟩ := exists_of_forall₂_append hxs.flip
      obtain ⟨x, xs₂, hx, hxs₂, rfl⟩ := forall₂_cons_right_iff.mp hrest
      have hsame₁ := memComponents_congr h₁ (hsame hbefore) hxs₁.flip
      have hsame₂ := memComponents_congr h₂ (hsame (filter_eq_nil_iff.mp hafter)) hxs₂.flip
      have hsplit : ∀ c f, MemComponents (before.map f ++ c :: after.map f) (xs₁ ++ x :: xs₂) ↔
          MemComponents (before.map f) xs₁ ∧ Mem c x ∧ MemComponents (after.map f) xs₂ := by
        intro c f
        rw [MemComponents, forall₂_append_iff (by simp [h₁.length_eq.symm, hxs₁.length_eq]),
          forall₂_cons]
      simp only [map_append, map_cons, hsplit, humem x hx, ← hsame₁, ← hsame₂]
      tauto
  · exact .inl rfl

/-! ## Shapes -/

/-- How a componentwise predicate of a shape over `levels` is read through its components: a path
splits into a tuple of component points, every tuple is the split of a path, and building from
components that admit something gives an arm of the class `A` that admits the product. -/
structure Shape (levels : List Extent) (shape : Componentwise) (Ls : List (List Extent))
    (A : Predicate → Prop) (split : List KeyPoint → List (List KeyPoint)) : Prop where
  ff : A .ff
  isOver : ∀ {p}, A p → Over levels p
  split_in : ∀ {x}, InLevels levels x → InComponents Ls (split x)
  split_surj : ∀ {xs}, InComponents Ls xs → ∃ x, InLevels levels x ∧ split x = xs
  build : ∀ {cs}, List.Forall₂ Over Ls cs → cs.any isFalse = false →
    ∃ r, shape.build cs = some r ∧ A r ∧
      ∀ x, InLevels levels x → (Mem r x ↔ MemComponents cs (split x))

section Shaped

variable {levels : List Extent} {shape : Componentwise} {A : Predicate → Prop}
  {split : List KeyPoint → List (List KeyPoint)}
  (hs : Shape levels shape Ls A split)

include hs

omit [ScalarOps] in
/-- Building from any components gives the product of their regions. -/
lemma Shape.build_spec {cs : List Predicate} (hcs : List.Forall₂ Over Ls cs) :
    Returns levels A (shape.build cs) (fun x => MemComponents cs (split x)) := by
  rcases hany : cs.any isFalse with _ | _
  · obtain ⟨r, hr, hA, hmem⟩ := hs.build hcs hany
    exact ⟨r, hr, hs.isOver hA, hA, hmem⟩
  obtain ⟨c, hc, hfalse⟩ := any_eq_true.mp hany
  refine ⟨.ff, by simp [Componentwise.build, hany], hs.isOver hs.ff, hs.ff, fun x _ => ?_⟩
  simp only [mem_ff, false_iff]
  intro hmem
  -- the empty component has no point
  obtain ⟨i, hi⟩ := mem_iff_getElem?.mp hc
  obtain ⟨L, _, hover⟩ := forall₂_getElem? hcs.flip hi
  obtain ⟨y, _, hy⟩ := forall₂_getElem? hmem hi
  exact not_mem_of_isFalse hover (isFalse_iff_asBool.mp hfalse) y hy

/-- The join of two componentwise predicates of one shape, where there is one, unites them. -/
lemma Shape.join_spec (h : PairsOver Ls pairs) :
    ∃ o, shape.join (pairs.map (·.1)) (pairs.map (·.2)) = some o ∧
      ∀ r, o = some r → A r ∧ ∀ x, InLevels levels x →
        (Mem r x ↔ MemComponents (pairs.map (·.1)) (split x) ∨
          MemComponents (pairs.map (·.2)) (split x)) := by
  rcases joinComponents_spec h shape with hnone | ⟨cs, hcs, heq, hmem⟩
  · exact ⟨none, hnone, by simp⟩
  · obtain ⟨r, hr, _, hA, hrmem⟩ := hs.build_spec hcs
    refine ⟨some r, by rw [heq, hr]; rfl, fun r' hr' => ?_⟩
    cases hr'
    exact ⟨hA, fun x hx => (hrmem x hx).trans (hmem _ (hs.split_in hx))⟩

/-- Containment of two componentwise predicates of one shape, the contained one not empty. -/
lemma Shape.contains_spec (h : PairsOver Ls pairs) {x : List KeyPoint} (hx : InLevels levels x)
    (hmem : MemComponents (pairs.map (·.2)) (split x)) :
    Decides (pairs.allM fun pq => subsumes pq.1 pq.2)
      (∀ x, InLevels levels x → MemComponents (pairs.map (·.2)) (split x) →
        MemComponents (pairs.map (·.1)) (split x)) := by
  refine (Predicate.contains_spec h ⟨_, hs.split_in hx, hmem⟩).congr ?_
  constructor
  · exact fun h x hx => h _ (hs.split_in hx)
  · intro h xs hxs
    obtain ⟨x, hx, rfl⟩ := hs.split_surj hxs
    exact h x hx

lemma Shape.step_spec (h : PairsOver Ls pairs) (i : ℕ) : Returns levels A (do
        let components ← pairs.zipIdx.mapM fun y =>
          if y.2 < i then intersect y.1.1 y.1.2
          else if y.2 = i then minus y.1.1 y.1.2
          else some y.1.1
        shape.build components)
      (fun x => ∀ (j : ℕ) pq y, pairs[j]? = some pq → (split x)[j]? = some y →
        Mem pq.1 y ∧ (j < i → Mem pq.2 y) ∧ (j = i → ¬Mem pq.2 y)) := by
  have hstep : ∀ z ∈ pairs.zipIdx, ∃ c, (if z.2 < i then intersect z.1.1 z.1.2
      else if z.2 = i then minus z.1.1 z.1.2 else some z.1.1) = some c ∧
      ∃ L, Ls[z.2]? = some L ∧ Over L c ∧ ∀ y, InLevels L y →
        (Mem c y ↔ Mem z.1.1 y ∧ (z.2 < i → Mem z.1.2 y) ∧ (z.2 = i → ¬Mem z.1.2 y)) := by
    rintro ⟨⟨p, q⟩, j⟩ hz
    obtain ⟨L, hL, hAlg, hp, hq⟩ := h.at_ (mk_mem_zipIdx_iff_getElem?.mp hz)
    rcases lt_trichotomy j i with hj | hj | hj
    · obtain ⟨c, hc, hover, _, hmem⟩ := hAlg.intersect hp hq
      exact ⟨c, by simp [hj, hc], L, hL, hover, fun y hy => by simp [hmem y hy, hj, hj.ne]⟩
    · obtain ⟨c, hc, hover, _, hmem⟩ := hAlg.minus hp hq
      exact ⟨c, by simp [hj, hc], L, hL, hover, fun y hy => by simp [hmem y hy, hj]⟩
    · exact ⟨p, by simp [hj.ne', hj.not_gt], L, hL, hp, fun y hy => by simp [hj.ne', hj.not_gt]⟩
  obtain ⟨cs, hcs, hall⟩ := mapM_eq_some_of_forall hstep
  have hlen : Ls.length = cs.length := by rw [← hall.length_eq, length_zipIdx, h.length_eq]
  have hat : ∀ (j : ℕ) c, cs[j]? = some c → ∃ pq, pairs[j]? = some pq ∧
      ∃ L, Ls[j]? = some L ∧ Over L c ∧ ∀ y, InLevels L y →
        (Mem c y ↔ Mem pq.1 y ∧ (j < i → Mem pq.2 y) ∧ (j = i → ¬Mem pq.2 y)) := by
    intro j c hc
    obtain ⟨⟨pq, k⟩, hz, hR⟩ := forall₂_getElem? hall.flip hc
    obtain ⟨hpq, rfl⟩ := getElem?_zipIdx_eq_some.mp hz
    exact ⟨pq, hpq, hR⟩
  have hover : List.Forall₂ Over Ls cs := by
    refine forall₂_iff_getElem?.mpr ⟨hlen, fun j L c hL hc => ?_⟩
    obtain ⟨_, _, L', hL', hover, _⟩ := hat j c hc
    exact Option.mem_unique hL' hL ▸ hover
  rw [hcs]
  refine (hs.build_spec hover).congr fun x hx => ?_
  have hxs := hs.split_in hx
  rw [memComponents_iff hlen.symm hxs]
  constructor
  · intro hmem j pq y hpq hy
    obtain ⟨L, hL, _⟩ := h.at_ hpq
    obtain ⟨c, hc, _⟩ := forall₂_getElem? hover hL
    obtain ⟨pq', hpq', L', hL', _, hR⟩ := hat j c hc
    obtain rfl := Option.mem_unique hpq hpq'
    exact (hR y (inComponents_at hxs hL' hy)).mp (hmem j c y hc hy)
  · intro hmem j c y hc hy
    obtain ⟨pq, hpq, L, hL, _, hR⟩ := hat j c hc
    exact (hR y (inComponents_at hxs hL hy)).mpr (hmem j pq y hpq hy)

/-- **The difference of two products** is the union of the steps of a staircase: the step at a
place holds the tuples that leave the second product there, and not before. -/
lemma Shape.minus_spec (hA : ArmClass levels A) (h : PairsOver Ls pairs) :
    Returns levels (Spreads A) (shape.minus (pairs.map (·.1)) (pairs.map (·.2)))
      (fun x => MemComponents (pairs.map (·.1)) (split x) ∧
        ¬MemComponents (pairs.map (·.2)) (split x)) := by
  classical
  obtain ⟨steps, hsteps, hall⟩ := mapM_eq_some_of_forall fun (z : (Predicate × Predicate) × ℕ)
    (_ : z ∈ pairs.zipIdx) => hs.step_spec h z.2
  have hstepA : ∀ r ∈ steps, A r := by
    intro r hr
    obtain ⟨_, _, _, hAr, _⟩ := exists_of_forall₂_mem_right hall hr
    exact hAr
  -- leaving the second product means leaving it somewhere first
  have hregion : ∀ x, InLevels levels x → ((∃ r ∈ steps, Mem r x) ↔
      MemComponents (pairs.map (·.1)) (split x) ∧ ¬MemComponents (pairs.map (·.2)) (split x)) := by
    intro x hx
    have hxs := hs.split_in hx
    rw [memComponents_map_iff h.length_eq hxs, memComponents_map_iff h.length_eq hxs]
    constructor
    · rintro ⟨r, hr, hmem⟩
      obtain ⟨i, hi⟩ := mem_iff_getElem?.mp hr
      obtain ⟨⟨pq, k⟩, hz, _, _, hrmem⟩ := forall₂_getElem? hall.flip hi
      obtain ⟨hpq, rfl⟩ := getElem?_zipIdx_eq_some.mp hz
      have hin := (hrmem x hx).mp hmem
      refine ⟨fun j pq y hpq hy => (hin j pq y hpq hy).1, fun hq => ?_⟩
      obtain ⟨L, hL, _⟩ := h.at_ hpq
      obtain ⟨y, hy, _⟩ := forall₂_getElem? hxs hL
      exact (hin i pq y hpq hy).2.2 rfl (hq i pq y hpq hy)
    · rintro ⟨hp, hq⟩
      push Not at hq
      have hleaves : ∃ i, ∃ (pq : Predicate × Predicate) (y : List KeyPoint),
          pairs[i]? = some pq ∧ (split x)[i]? = some y ∧ ¬Mem pq.2 y := hq
      obtain ⟨pq, y, hpq, hy, hnot⟩ := Nat.find_spec hleaves
      obtain ⟨r, hr, _, _, hrmem⟩ := forall₂_getElem? hall (getElem?_zipIdx_eq_some.mpr ⟨hpq, rfl⟩)
      refine ⟨r, mem_of_getElem? hr, (hrmem x hx).mpr fun j pq' y' hpq' hy' =>
        ⟨hp j pq' y' hpq' hy', fun hj => ?_, fun hj => ?_⟩⟩
      · by_contra hnot'
        exact Nat.find_min hleaves hj ⟨pq', y', hpq', hy', hnot'⟩
      · subst hj
        rwa [← Option.mem_unique hpq hpq', ← Option.mem_unique hy hy']
  have hkept : ∀ x, (∃ r ∈ steps.filter fun step => !step.isFalse, Mem r x) ↔
      ∃ r ∈ steps, Mem r x := fun x => exists_mem_not_isFalse fun r hr => hs.isOver (hstepA r hr)
  rw [minusComponents_def, zip_map_fst_snd, hsteps]
  simp only [Option.bind_eq_bind, Option.bind_some]
  split_ifs with hempty
  · refine ⟨.ff, rfl, hs.isOver hs.ff, hA.spreads hs.ff, fun x hx => ?_⟩
    have hnone := (hkept x).trans (hregion x hx)
    rw [List.isEmpty_iff.mp hempty] at hnone
    simpa using hnone
  · have hkeptA : ∀ r ∈ steps.filter fun step => !step.isFalse, A r := fun r hr =>
      hstepA r (mem_filter.mp hr).1
    refine (flattenOr_spec hA (fun hnil => hempty (by simp [hnil]))
      (fun r hr => hs.isOver (hkeptA r hr)) fun r hr => hA.spreads (hkeptA r hr)).congr
      fun x hx => ?_
    rw [hkept x, hregion x hx]

end Shaped

end Predicate

end Cambra
