import Cambra.Tiling.Normal

/-!
# Guards name exact regions

`flatten_or`, `union` and `intersect` over the guards of a tiling, put together from the stages of
`Tiling.Normal`.
-/

namespace Cambra

open List hiding Mem
open Option

namespace TileGuard

open Predicate (Mem Over Returns atoms_of_levels)

section Algebra

variable [ScalarOps]

/-! ## Unions -/

/-- What `flatten_or` makes of the lifted chains. -/
def ofLifted (flat : List TileGuard) : Option TileGuard :=
  match flat.find? isUniversal with
  | some everything => some everything
  | none => do
    let merged ← (dropEmpty flat).foldlM mergeInto []
    ofMerged (← withoutCoveredArms merged)

lemma flattenOr_eq (arms : List TileGuard) :
    flattenOr arms = ((arms.map chains).flatten.mapM lift).bind fun lifted =>
      ofLifted lifted.flatten := by
  rw [flattenOr_def]
  rfl

variable {above base inner : List Extent} {t : Tiling} {arms : List TileGuard} {a b g : TileGuard}
  {p pred : Predicate}

omit [ScalarOps] in
lemma NamesAll.ofMerged {gs : List TileGuard} {S : List KeyPoint → List (Step KeyPoint) → Prop}
    (h : NamesAll above t (some gs) S) : Names above t (TileGuard.ofMerged gs) S := by
  obtain ⟨gs', hgs, hne, hover, hcov⟩ := h
  cases hgs
  rcases gs with _ | ⟨g, _ | ⟨g', gs⟩⟩
  · exact absurd rfl hne
  · exact ⟨g, rfl, hover g (by simp), fun path cell hpath hcell => by
      simpa using hcov path cell hpath hcell⟩
  · refine ⟨.ofOr (g :: g' :: gs), rfl, .ofOr (by simp) hover, fun path cell hpath hcell => ?_⟩
    rw [covers_ofOr, hcov path cell hpath hcell]

/-- **`flatten_or` covers what its arms do**, from what holds inside the tiling. -/
theorem flattenOr_names (ht : t.WellFormed) (hin : Inside Normal t) (hl : ∀ e ∈ above, e.WellFormed)
    (hne : arms ≠ []) (harms : ∀ arm ∈ arms, IsOver above t arm) :
    Names above t (flattenOr arms) (fun path cell => ∃ arm ∈ arms, Covers Mem arm path cell) := by
  obtain ⟨hchains, hcover, hcovers⟩ := chains_spec (IsOver.ofOr hne harms)
  rw [chains] at hchains hcover
  simp only [chains, covers_ofOr] at hcovers
  have hlift : ∀ c ∈ (arms.map chains).flatten, NamesAll above t (lift c) (Covers Mem c) := by
    intro c hc
    have hover := hcover c hc
    rw [← wrapGuard_chainEnd c] at hover ⊢
    exact lift_spec hl ht hin _ (chainEnd_chainEnd c) hover
  obtain ⟨lifted, hlifted, hflat⟩ := NamesAll.flatten hchains hlift
  rw [flattenOr_eq, hlifted, bind_some, ofLifted]
  obtain ⟨flat, hsome, hflatne, hover, hcov⟩ :=
    hflat.congr fun path cell _ _ => (hcovers path cell).symm
  cases hsome
  cases hfind : lifted.flatten.find? isUniversal with
  | some everything =>
    have heverything := mem_of_find?_eq_some hfind
    refine ⟨everything, rfl, hover _ heverything, fun path cell hpath hcell => ?_⟩
    have hall := covers_of_isUniversal (hover _ heverything) (find?_some hfind) hpath hcell
    exact iff_of_true hall ((hcov path cell hpath hcell).mp ⟨_, heverything, hall⟩)
  | none =>
    obtain ⟨hdropne, hdrop, hdropcov⟩ := dropEmpty_spec hflatne hover
    obtain ⟨merged, hmerged, hmergedne, hmover, hmcov⟩ := foldlM_mergeInto_spec hl ht hin
      (.inr hdropne) (by simp : ∀ g ∈ ([] : List TileGuard), IsOver above t g)
      fun g hg => hover g (hdrop g hg)
    obtain ⟨pruned, hpruned, hnames⟩ := withoutCoveredArms_spec hl ht hmergedne hmover
    simp only [hmerged, bind_eq_bind, bind_some, hpruned]
    refine (NamesAll.ofMerged ⟨pruned, rfl, hnames⟩).congr fun path cell hpath hcell => ?_
    simp only [hmcov path cell hpath hcell, hdropcov, hcov path cell hpath hcell,
      List.not_mem_nil, false_and, exists_false, false_or]

section Union

variable (ht : t.WellFormed) (hin : Inside Normal t) (hl : ∀ e ∈ above, e.WellFormed)

include ht hin hl

lemma flattenOr_concat_names (harms : IsOver above t (.ofOr arms)) (hg : IsOver above t g) :
    Names above t (flattenOr (arms ++ [g]))
      (fun path cell => Covers Mem (.ofOr arms) path cell ∨ Covers Mem g path cell) := by
  have hover : ∀ arm ∈ arms, IsOver above t arm := by
    cases harms with
    | ofOr _ h => exact h
  refine (flattenOr_names ht hin hl (by simp)
    (by simpa [or_imp, forall_and] using ⟨hover, hg⟩)).congr fun path cell _ _ => ?_
  simp [covers_ofOr, or_and_right, exists_or]

/-- What `FunctionGuard::union` answers is the union, where it answers. -/
lemma functionUnion_names (ha : IsOver above t a) (hb : IsOver above t b) :
    ∃ o, functionUnion a b = some o ∧ ∀ merged, o = some merged → Names above t (some merged)
        (fun path cell => Covers Mem a path cell ∨ Covers Mem b path cell) := by
  have hanswer : ∀ {g}, Names above t (some g)
      (fun path cell => Covers Mem a path cell ∨ Covers Mem b path cell) →
      ∃ o, some (some g) = some o ∧ ∀ merged, o = some merged → Names above t (some merged)
        (fun path cell => Covers Mem a path cell ∨ Covers Mem b path cell) := fun h =>
    ⟨_, rfl, fun _ heq => Option.some.inj heq ▸ h⟩
  rw [functionUnion_def]
  split_ifs with hea heb hua hub
  · exact hanswer ⟨b, rfl, hb, fun _ _ _ _ => by simp [not_covers_of_isEmpty ha hea]⟩
  · exact hanswer ⟨a, rfl, ha, fun _ _ _ _ => by simp [not_covers_of_isEmpty hb heb]⟩
  · exact hanswer ⟨a, rfl, ha, fun _ _ hpath hcell => by
      simp [covers_of_isUniversal ha hua hpath hcell]⟩
  · exact hanswer ⟨b, rfl, hb, fun _ _ hpath hcell => by
      simp [covers_of_isUniversal hb hub hpath hcell]⟩
  · cases ha with
    | domain hlevel hp =>
      cases hb with
      | domain hlevel' hq =>
        obtain rfl := hlevel.eq hlevel'
        obtain ⟨g, hg, hnames⟩ := unionDomain_spec (by simpa using ⟨hlevel.wellFormed ht, hl⟩)
          hlevel hp hq
        obtain ⟨r, hr, rfl⟩ := map_eq_some_iff.mp ((map_eq_bind ..).trans hg)
        simpa [hr] using hanswer ⟨_, rfl, hnames⟩
      | _ => exact ⟨none, rfl, by simp⟩
    | codomain hx =>
      cases hb with
      | codomain hy =>
        cases ht with
        | dataFunction hown hvalues =>
          obtain ⟨r, hr, hover, hcov⟩ :=
            (Everywhere.here hin).union (by simpa using ⟨hown, hl⟩) hx hy
          simp only [hr, bind_eq_bind, bind_some]
          refine hanswer ⟨_, rfl, .codomain hover, fun path cell hpath hcell => ?_⟩
          obtain ⟨k, rest, rfl, hk, hrest⟩ := CellOf.exists_key hcell
          simp [covers_codomain, hcov _ _ (.cons hk hpath) hrest]
      | _ => exact ⟨none, rfl, by simp⟩
    | _ => exact ⟨none, rfl, by simp⟩

/-- Two function guards, united in one arm or side by side. -/
lemma unionFunction_names (ha : IsOver above t a) (hb : IsOver above t b) : Names above t
      ((functionUnion a b).bind fun o =>
        match o with
        | some merged => flattenOr [merged]
        | none => flattenOr [a, b])
      (fun path cell => Covers Mem a path cell ∨ Covers Mem b path cell) := by
  obtain ⟨o, ho, hmerged⟩ := functionUnion_names ht hin hl ha hb
  rw [ho, bind_some]
  cases o with
  | some merged =>
    obtain ⟨_, ⟨⟩, hover, hcov⟩ := hmerged merged rfl
    refine (flattenOr_names ht hin hl (by simp) (by simpa using hover)).congr
      fun path cell hpath hcell => ?_
    simpa using hcov path cell hpath hcell
  | none =>
    refine (flattenOr_names ht hin hl (by simp) (by simpa using ⟨ha, hb⟩)).congr
      fun path cell _ _ => ?_
    simp

/-- **`union` covers what its arguments do**, from what holds inside the tiling. -/
theorem union_names (ha : IsOver above t a) (hb : IsOver above t b) : Names above t (union a b)
      (fun path cell => Covers Mem a path cell ∨ Covers Mem b path cell) := by
  -- an `Or` on the right, whatever stands on the left
  have hright : ∀ {arms}, IsOver above t (.ofOr arms) → Names above t (flattenOr (arms ++ [a]))
      (fun path cell => Covers Mem a path cell ∨ Covers Mem (.ofOr arms) path cell) := fun harms =>
    (flattenOr_concat_names ht hin hl harms ha).congr fun _ _ _ _ => or_comm
  have hfun := unionFunction_names ht hin hl ha hb
  rw [union_def]
  cases ha with
  | ofOr hne h => exact flattenOr_concat_names ht hin hl (.ofOr hne h) hb
  | scalar hs hp =>
    cases hb with
    | scalar hs' hq => exact unionLeaf_spec hl .scalar hs hs' hp hq
    | domain hlevel _ => cases hlevel
    | ofOr hne h => exact hright (.ofOr hne h)
  | aggregation hs hp =>
    cases hb with
    | aggregation hs' hq => exact unionLeaf_spec hl .aggregation hs hs' hp hq
    | domain hlevel _ => cases hlevel
    | ofOr hne h => exact hright (.ofOr hne h)
  | record hasc hkeys hg =>
    cases hb with
    | record hasc' hkeys' hg' =>
      have h := unionRecord_spec hl hin (.record hasc hkeys hg) (.record hasc' hkeys' hg')
      rwa [union_def] at h
    | domain hlevel _ => cases hlevel
    | ofOr hne h => exact hright (.ofOr hne h)
  | domain hlevel hp =>
    cases hb with
    | ofOr hne h => exact hright (.ofOr hne h)
    | domain | codomain => exact hfun
    | _ => cases hlevel
  | codomain hx =>
    cases hb with
    | ofOr hne h => exact hright (.ofOr hne h)
    | domain | codomain => exact hfun

end Union

/-- **Unions over a well-formed tiling cover what their parts do**, everywhere inside it. -/
theorem normal_of_wellFormed (ht : t.WellFormed) : Everywhere Normal t := by
  have hstep : ∀ {t : Tiling}, t.WellFormed → Inside Normal t → Normal t := fun ht hin =>
    ⟨ht, fun hl _ hne harms => flattenOr_names ht hin hl hne harms,
      fun hl _ _ ha hb => union_names ht hin hl ha hb⟩
  induction ht with
  | scalar => exact .scalar (hstep .scalar trivial)
  | aggregation => exact .aggregation (hstep .aggregation trivial)
  | store h => exact .store (hstep (.store h) trivial)
  | dataFunction hown hvalues ih =>
    exact .dataFunction (hstep (.dataFunction hown hvalues) ih) ih
  | record hasc h ih => exact .record (hstep (.record hasc h) ih) ih

/-! ## Meets -/

lemma requireLevel_of_not_or (h : pred.isOr = false) (at_ own : ℕ) : pred.requireLevel p at_ own =
      if own = at_ + 1 then
        (Predicate.intersect pred.splitQualification.1 p).bind fun enclosing =>
          some (.qualified enclosing pred.splitQualification.2)
      else
        (pred.splitQualification.1.requireLevel p at_ (own - 1)).bind fun enclosing =>
          some (.qualified enclosing pred.splitQualification.2) := by
  rw [Predicate.requireLevel.eq_def]
  cases pred <;> first | rfl | simp [Predicate.isOr] at h

lemma requireLevel_ofOr {arms : List Predicate} (at_ own : ℕ) :
    Predicate.requireLevel (.ofOr arms) p at_ own =
      (arms.mapM (Predicate.requireLevel · p at_ own)).bind Predicate.flattenOr := by
  rw [Predicate.requireLevel.eq_def]
  rfl

/-- **Requiring `p` of a level** is meeting it with the paths through that level. -/
lemma requireLevel_spec (hp : Over base p) (at_ : ℕ) (hne : inner ≠ [])
    (hl : ∀ e ∈ inner ++ base, e.WellFormed) (hpred : Over (inner ++ base) pred) :
    Returns (inner ++ base) (fun _ => True) (pred.requireLevel p at_ (at_ + inner.length))
      (fun x => Mem pred x ∧ Mem p (x.drop inner.length)) := by
  induction inner generalizing pred with
  | nil => exact absurd rfl hne
  | cons own inner ih =>
    have hlo : ∀ e ∈ inner ++ base, e.WellFormed := fun e he => hl e (by simp_all)
    have hbase : inner ++ base ≠ [] := append_ne_nil_of_right_ne_nil _ hp.levels_ne_nil
    -- the requirement on the paths a predicate that is no `Or` is under
    have hunder : ∀ {e}, Over (inner ++ base) e → Returns (inner ++ base) (fun _ => True)
        (if at_ + (inner.length + 1) = at_ + 1 then Predicate.intersect e p
          else e.requireLevel p at_ (at_ + (inner.length + 1) - 1))
        (fun xs => Mem e xs ∧ Mem p (xs.drop inner.length)) := by
      intro e he
      cases inner with
      | nil =>
        rw [if_pos (by simp)]
        exact (atoms_of_levels hbase hlo).intersect_spec he hp
      | cons own' inner =>
        rw [if_neg (by simp)]
        exact ih (by simp) hlo he
    induction pred with
    | ofOr arms iharm =>
      rw [requireLevel_ofOr]
      exact Predicate.intersect_arms_spec (atoms_of_levels (by simp) hl).arms hpred.arms_ne_nil
        fun arm harm => iharm arm harm (hpred.of_mem_arms harm)
    | _ =>
      obtain ⟨he, hh, hmem⟩ := Predicate.split_spec hpred (by simp [Predicate.isOr])
      replace he := he.resolve_left fun h => hbase h.1
      obtain ⟨e, heq, hover, _, hemem⟩ := hunder he
      obtain ⟨hqover, hqmem⟩ := Predicate.qualified_spec (.inr hover) hh
      refine ⟨_, ?_, hqover, trivial, fun x hx => ?_⟩
      · rw [requireLevel_of_not_or rfl, length_cons]
        split_ifs with hown
        · rw [if_pos hown] at heq
          rw [heq, bind_some]
        · rw [if_neg hown] at heq
          rw [heq, bind_some]
      · obtain ⟨k, ks, rfl, hk, hks⟩ := hx.exists_cons
        simp only [hqmem k ks hks, hemem ks hks, hmem, length_cons, drop_succ_cons]
        exact and_right_comm

lemma LeafShape.requireLevel {r : Predicate} {at_ own : ℕ} (hs : LeafShape pred)
    (h : pred.requireLevel p at_ own = some r) : LeafShape r := by
  rw [requireLevel_of_not_or hs.not_isOr] at h
  -- whatever the paths are, the leaf is named under them
  have hunder : ∃ enclosing, Predicate.qualified enclosing pred.splitQualification.2 = r := by
    split_ifs at h
    · obtain ⟨e, _, h⟩ := bind_eq_some_iff.mp h
      exact ⟨e, Option.some.inj h⟩
    · obtain ⟨e, _, h⟩ := bind_eq_some_iff.mp h
      exact ⟨e, Option.some.inj h⟩
  obtain ⟨enclosing, rfl⟩ := hunder
  cases hs with
  | tt => exact leafShape_qualified enclosing
  | ff =>
    have hff : Predicate.qualified enclosing .ff = .ff := by
      simp [Predicate.qualified, Predicate.isFalse, Predicate.asBool]
    rw [Predicate.splitQualification, hff]
    · exact .ff
    · simp
  | under => exact leafShape_qualified enclosing

/-- A leaf with `p` required of a level above it. -/
lemma requireLeaf_names (hp : Over base p) (at_ : ℕ) (hl : ∀ e ∈ inner ++ base, e.WellFormed)
    {f : Predicate → TileGuard} (hleaf : IsLeaf t f) (hs : LeafShape pred)
    (hpred : Over (keyless :: (inner ++ base)) pred) :
    Names (inner ++ base) t (do return f (← pred.requireLevel p at_ (at_ + 1 + inner.length)))
      (fun path cell => Covers Mem (f pred) path cell ∧ Mem p (path.drop inner.length)) := by
  have hspec := requireLevel_spec hp at_ (cons_ne_nil keyless inner) (wellFormed_keyless hl) hpred
  rw [length_cons, ← Nat.add_assoc, Nat.add_right_comm] at hspec
  refine (hleaf.names hspec fun _ => hs.requireLevel).congr fun path cell _ hcell => ?_
  rw [hleaf.covers_iff hs hcell, drop_succ_cons]

omit [ScalarOps] in
/-- A record whose fields each keep their cells under some of the paths. -/
lemma mapFields_names {tilings : List (String × Tiling)} {fields : List (String × TileGuard)}
    {f : TileGuard → Option TileGuard} {S : List KeyPoint → Prop}
    (hrec : IsOver above (.record tilings) (.record fields))
    (h : ∀ k g t, (k, g) ∈ fields → tilings.lookup k = some t →
      Names above t (f g) (fun path cell => Covers Mem g path cell ∧ S path)) :
    Names above (.record tilings)
      (do return .record (← fields.mapM fun kg => do return (kg.1, ← f kg.2)))
      (fun path cell => Covers Mem (.record fields) path cell ∧ S path) := by
  obtain ⟨fields', hmap, hover, hcov⟩ := mapM_record (f := fun _ => f)
    (Φ := fun path _ c r => r ↔ c ∧ S path) hrec h
  exact ⟨.record fields', by simp only [hmap]; rfl, hover, hcov⟩

/-- The arms of an `Or`, each answered and united. -/
lemma flattenOr_mapM_names (ht : t.WellFormed) (hl : ∀ e ∈ above, e.WellFormed) (hne : arms ≠ [])
    {f : TileGuard → Option TileGuard} {S : TileGuard → List KeyPoint → List (Step KeyPoint) → Prop}
    (h : ∀ arm ∈ arms, Names above t (f arm) (S arm)) :
    Names above t (do flattenOr (← arms.mapM f))
      (fun path cell => ∃ arm ∈ arms, S arm path cell) := by
  obtain ⟨rs, hrs, hall⟩ := mapM_eq_some_of_forall h
  have hrsne : rs ≠ [] := by
    rintro rfl
    exact hne (forall₂_nil_right_iff.mp hall)
  rw [hrs, bind_eq_bind, bind_some]
  refine ((normal_of_wellFormed ht).here.flattenOr hl hrsne fun r hr => ?_).congr
    fun path cell hpath hcell => ?_
  · obtain ⟨_, _, hover, _⟩ := exists_of_forall₂_mem_right hall hr
    exact hover
  · exact exists_mem_iff_of_forall₂ hall fun _ _ hR => hR.2 path cell hpath hcell

/-- **Requiring `p` of a level above a guard** covers what the guard does under the keys `p`
admits. -/
theorem requireAt_names (hp : Over base p) (at_ : ℕ) (habove : above = inner ++ base)
    (hl : ∀ e ∈ above, e.WellFormed) (ht : t.WellFormed) (hg : IsOver above t g) :
    Names above t (requireAt g p at_ (at_ + 1 + inner.length))
      (fun path cell => Covers Mem g path cell ∧ Mem p (path.drop inner.length)) := by
  induction hg generalizing inner with
  | scalar hs hpred =>
    subst habove
    rw [requireAt.eq_def]
    exact requireLeaf_names hp at_ hl .scalar hs hpred
  | aggregation hs hpred =>
    subst habove
    rw [requireAt.eq_def]
    exact requireLeaf_names hp at_ hl .aggregation hs hpred
  | @domain above t own pred hlevel hpred =>
    subst habove
    have hl' : ∀ e ∈ (own :: inner) ++ base, e.WellFormed := by
      simpa using ⟨hlevel.wellFormed ht, by simpa using hl⟩
    obtain ⟨r, hr, hover, _, hmem⟩ := requireLevel_spec hp at_ (cons_ne_nil own inner) hl' hpred
    rw [length_cons, ← Nat.add_assoc, Nat.add_right_comm] at hr
    refine ⟨.domain r, by rw [requireAt.eq_def]; simp [hr], .domain hlevel hover,
      fun path cell hpath hcell => ?_⟩
    obtain ⟨k, rest, rfl, hk⟩ := hlevel.exists_key hcell
    simp only [covers_domain, hmem _ (.cons hk hpath), length_cons, drop_succ_cons]
  | @codomain above own values g _ ih =>
    subst habove
    cases ht with
    | dataFunction hown hvalues =>
      have hl' : ∀ e ∈ own :: (inner ++ base), e.WellFormed := by
        simpa using ⟨hown, by simpa using hl⟩
      obtain ⟨r, hr, hover, hcov⟩ := ih (cons_append (a := own)).symm hl' hvalues
      rw [length_cons, ← Nat.add_assoc] at hr
      refine ⟨.codomain r, by rw [requireAt.eq_def]; simp [hr], .codomain hover,
        fun path cell hpath hcell => ?_⟩
      obtain ⟨k, rest, rfl, hk, hrest⟩ := CellOf.exists_key hcell
      simp only [covers_codomain, hcov _ _ (.cons hk hpath) hrest, length_cons, drop_succ_cons]
  | record hasc hkeys hg ih =>
    cases ht with
    | record _ htilings =>
      rw [requireAt.eq_def]
      exact mapFields_names (.record hasc hkeys hg) fun k g t hmem htk =>
        ih k g t hmem htk habove hl (htilings k t (mem_of_lookup_eq_some htk))
  | ofOr hne hg ih =>
    rw [requireAt.eq_def]
    refine (flattenOr_mapM_names ht hl hne fun arm harm => ih arm harm habove hl ht).congr
      fun path cell _ _ => ?_
    simp only [covers_ofOr, ← and_assoc, exists_and_right]

lemma intersectLeaf_names (hl : ∀ e ∈ above, e.WellFormed) {f : Predicate → TileGuard}
    (hleaf : IsLeaf t f) {q : Predicate} (hps : LeafShape p) (hqs : LeafShape q)
    (hp : p.Over (keyless :: above)) (hq : q.Over (keyless :: above)) :
    Names above t (do return f (← Predicate.intersect p q))
      (fun path cell => Covers Mem (f p) path cell ∧ Covers Mem (f q) path cell) := by
  refine (hleaf.names ((atoms_of_levels (by simp) (wellFormed_keyless hl)).intersect_spec hp hq)
    fun _ => hps.intersect hqs).congr fun path cell _ hcell => ?_
  rw [hleaf.covers_iff hps hcell, hleaf.covers_iff hqs hcell]

/-- How two guards of a function meet: one that is empty or everything decides it, and `met` is
what the other pairs answer. -/
def meetUnlessWhole (a b : TileGuard) (met : Option TileGuard) : Option TileGuard :=
  if a.isEmpty then some a
  else if b.isEmpty then some b
  else if a.isUniversal then some b
  else if b.isUniversal then some a
  else met

omit [ScalarOps] in
lemma meetUnlessWhole_names (ha : IsOver above t a) (hb : IsOver above t b) {met : Option TileGuard}
    (h : Names above t met (fun path cell => Covers Mem a path cell ∧ Covers Mem b path cell)) :
    Names above t (meetUnlessWhole a b met)
      (fun path cell => Covers Mem a path cell ∧ Covers Mem b path cell) := by
  rw [meetUnlessWhole]
  split_ifs with hae hbe hau hbu
  · exact ⟨a, rfl, ha, fun _ _ _ _ => by simp [not_covers_of_isEmpty ha hae]⟩
  · exact ⟨b, rfl, hb, fun _ _ _ _ => by simp [not_covers_of_isEmpty hb hbe]⟩
  · exact ⟨b, rfl, hb, fun _ _ hpath hcell => by simp [covers_of_isUniversal ha hau hpath hcell]⟩
  · exact ⟨a, rfl, ha, fun _ _ hpath hcell => by simp [covers_of_isUniversal hb hbu hpath hcell]⟩
  · exact h

/-- A domain guard meets what is under the keys of its level. -/
lemma meetDomain_names {own : Extent} {values : Tiling}
    (ht : (Tiling.dataFunction own values).WellFormed) (hl : ∀ e ∈ above, e.WellFormed)
    (hp : p.Over (own :: above)) (hg : IsOver (own :: above) values g) (level : ℕ) :
    Names above (.dataFunction own values) (do return .codomain (← requireAt g p level (level + 1)))
      (fun path cell => Covers Mem (.domain p) path cell ∧ Covers Mem (.codomain g) path cell) := by
  cases ht with
  | dataFunction hown hvalues =>
    obtain ⟨r, hr, hover, hcov⟩ := requireAt_names hp level (nil_append _).symm
      (by simpa using ⟨hown, hl⟩) hvalues hg
    refine ⟨.codomain r, by simp only [length_nil, Nat.add_zero] at hr; simp [hr],
      .codomain hover, fun path cell hpath hcell => ?_⟩
    obtain ⟨k, rest, rfl, hk, hrest⟩ := CellOf.exists_key hcell
    simp only [covers_codomain, covers_domain, hcov _ _ (.cons hk hpath) hrest, length_nil,
      drop_zero]
    exact and_comm

/-- **`intersect` covers what both its arguments do.** -/
theorem intersectAt_names (ht : t.WellFormed) (hl : ∀ e ∈ above, e.WellFormed)
    (ha : IsOver above t a) (hb : IsOver above t b) (level : ℕ) :
    Names above t (intersectAt a b level)
      (fun path cell => Covers Mem a path cell ∧ Covers Mem b path cell) := by
  -- the arms of an `Or` on the right meet what is on the left in its place
  obtain ⟨n, hn⟩ : ∃ n, n = sizeOf a + sizeOf b := ⟨_, rfl⟩
  induction n using Nat.strong_induction_on generalizing t above a b level with
  | h n ih =>
    have harms : ∀ {arms : List TileGuard} {g : TileGuard}, IsOver above t (.ofOr arms) →
        IsOver above t g → sizeOf (TileGuard.ofOr arms) + sizeOf g = n →
        Names above t (do flattenOr (← arms.mapM fun arm => intersectAt arm g level))
          (fun path cell => Covers Mem (.ofOr arms) path cell ∧ Covers Mem g path cell) := by
      intro arms g hor hg hsize
      cases hor with
      | ofOr hne h =>
        have harm : ∀ arm ∈ arms, Names above t (intersectAt arm g level)
            (fun path cell => Covers Mem arm path cell ∧ Covers Mem g path cell) := by
          intro arm hmem
          have hlt := sizeOf_lt_of_mem hmem
          simp only [ofOr.sizeOf_spec] at hsize
          exact ih _ (by omega) ht hl (h arm hmem) hg level rfl
        refine (flattenOr_mapM_names ht hl hne harm).congr fun path cell _ _ => ?_
        simp only [covers_ofOr, ← and_assoc, exists_and_right]
    have hright : ∀ {arms}, IsOver above t (.ofOr arms) →
        sizeOf a + sizeOf (TileGuard.ofOr arms) = n →
        Names above t (do flattenOr (← arms.mapM fun arm => intersectAt arm a level))
          (fun path cell => Covers Mem a path cell ∧ Covers Mem (.ofOr arms) path cell) :=
      fun hor hsize => (harms hor ha (by omega)).congr fun _ _ _ _ => and_comm
    rw [intersectAt.eq_def]
    cases ha with
    | ofOr hne h => exact harms (.ofOr hne h) hb hn.symm
    | scalar hs hp =>
      cases hb with
      | scalar hs' hq => exact intersectLeaf_names hl .scalar hs hs' hp hq
      | domain hlevel _ => cases hlevel
      | ofOr hne h => exact hright (.ofOr hne h) hn.symm
    | aggregation hs hp =>
      cases hb with
      | aggregation hs' hq => exact intersectLeaf_names hl .aggregation hs hs' hp hq
      | domain hlevel _ => cases hlevel
      | ofOr hne h => exact hright (.ofOr hne h) hn.symm
    | record hasc hkeys hg =>
      cases hb with
      | record hasc' hkeys' hg' =>
        refine @zipFields_names _ _ _ _ (fun x y => intersectAt x y level) And
          (.record hasc hkeys hg) (.record hasc' hkeys' hg')
          fun k t x y htk hx hy hxover hyover => ?_
        have hltx := sizeOf_lt_of_mem hx
        have hlty := sizeOf_lt_of_mem hy
        simp only [record.sizeOf_spec, Prod.mk.sizeOf_spec] at hn hltx hlty
        cases ht with
        | record _ htilings =>
          exact ih _ (by omega) (htilings k t (mem_of_lookup_eq_some htk)) hl hxover hyover level
            rfl
      | domain hlevel _ => cases hlevel
      | ofOr hne h => exact hright (.ofOr hne h) hn.symm
    | domain hlevel hp =>
      cases hb with
      | domain hlevel' hq =>
        obtain rfl := hlevel.eq hlevel'
        have hown := hlevel.wellFormed ht
        obtain ⟨r, hr, hover, _, hmem⟩ :=
          (atoms_of_levels (by simp) (by simpa using ⟨hown, hl⟩)).intersect_spec hp hq
        refine meetUnlessWhole_names (.domain hlevel hp) (.domain hlevel hq) ?_
        refine ⟨.domain r, by simp [hr], .domain hlevel hover, fun path cell hpath hcell => ?_⟩
        obtain ⟨k, rest, rfl, hk⟩ := hlevel.exists_key hcell
        simp only [covers_domain, hmem _ (.cons hk hpath)]
      | codomain hg =>
        cases hlevel
        exact meetUnlessWhole_names (.domain .dataFunction hp) (.codomain hg)
          (meetDomain_names ht hl hp hg level)
      | ofOr hne h => exact hright (.ofOr hne h) hn.symm
      | _ => cases hlevel
    | codomain hx =>
      cases hb with
      | codomain hy =>
        cases ht with
        | dataFunction hown hvalues =>
          simp only [codomain.sizeOf_spec] at hn
          obtain ⟨r, hr, hover, hcov⟩ := ih _ (by omega) hvalues (by simpa using ⟨hown, hl⟩) hx hy
            (level + 1) rfl
          refine meetUnlessWhole_names (.codomain hx) (.codomain hy) ?_
          refine ⟨.codomain r, by simp [hr], .codomain hover, fun path cell hpath hcell => ?_⟩
          obtain ⟨k, rest, rfl, hk, hrest⟩ := CellOf.exists_key hcell
          simp only [covers_codomain, hcov _ _ (.cons hk hpath) hrest]
      | domain hlevel hp =>
        cases hlevel
        exact meetUnlessWhole_names (.codomain hx) (.domain .dataFunction hp)
          ((meetDomain_names ht hl hp hx level).congr fun _ _ _ _ => and_comm)
      | ofOr hne h => exact hright (.ofOr hne h) hn.symm

end Algebra

end TileGuard

end Cambra
