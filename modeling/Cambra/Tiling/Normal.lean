import Cambra.Tiling.Cells

/-!
# Normal forms cover what they are made from

`flatten_or` covers exactly what its arms cover together, and `union` what its two arguments do.

The two call each other through the fields of records, so they are proved for a tiling from what
holds everywhere inside it (`Normal`, `Inside`).  Each stage of `flatten_or` has its own lemma:
`lift_spec` for the lifting of whole values to keys, `mergeInto_spec` for arms at one place, and
`withoutCoveredArms_spec` for the pruning of what a shallower arm names whole.  Pruning is against
the arms as they were before it, so an arm may lose what another arm loses too; the shallowest arm
naming a cell keeps it, by induction on the depth.
-/

namespace Cambra

open List hiding Mem
open Option hiding or_assoc

namespace TileGuard

open Predicate (Mem Over Returns Atoms atoms_of_levels Covered StatedOver)

/-! ## Leaves keep their shape -/

lemma leafShape_qualified (enclosing : Predicate) :
    LeafShape (Predicate.qualified enclosing .tt) := by
  rw [Predicate.qualified]
  split_ifs with hfalse htrue
  · exact .ff
  · exact .tt
  · refine .under ?_
    rcases h : enclosing.asBool with _ | _ | _
    · rfl
    · simp [Predicate.isFalse, h] at hfalse
    · simp [Predicate.isTrue, h] at htrue

variable {r p q : Predicate} {P : Tiling → Prop} {t t' : Tiling} {above above' : List Extent}
  {f : Predicate → TileGuard} {n : ℕ} {S : List KeyPoint → List (Step KeyPoint) → Prop}
  {g : TileGuard} {fields : List (String × TileGuard)} {tilings : List (String × Tiling)}
  {e : Predicate} {S' : List KeyPoint → List (Step KeyPoint) → Prop}

lemma leafShape_build (h : Componentwise.qualified.build [e, .tt] = some r) : LeafShape r := by
  rw [Componentwise.build] at h
  split_ifs at h with hany
  · cases h
    exact .ff
  · cases h
    exact leafShape_qualified e

lemma LeafShape.not_isOr (h : LeafShape p) : p.isOr = false := by cases h <;> rfl

section Ops

variable [ScalarOps] {o : Option Predicate}

/-- Two leaves named under some paths join: they differ in the paths alone. -/
lemma joinComponents_leaf {e' : Predicate}
    (h : Componentwise.join .qualified [e, .tt] [e', .tt] = some o) :
    ∃ c one, o = some one ∧ Componentwise.qualified.build [c, .tt] = some one := by
  have htt : Predicate.sameRegion .tt .tt = some true := by
    rw [Predicate.sameRegion_def]
    simp
  rw [Predicate.joinComponents_def] at h
  rcases hsame : Predicate.sameRegion e e' with _ | _ | _ <;>
    simp [hsame, htt, List.filterM, List.filterAuxM, bind_eq_some_iff] at h
  · obtain ⟨c, _, one, hb, rfl⟩ := h
    exact ⟨c, one, rfl, hb⟩
  · obtain ⟨one, hb, rfl⟩ := h
    exact ⟨e, one, rfl, hb⟩

lemma LeafShape.union (hp : LeafShape p) (hq : LeafShape q) (h : Predicate.union p q = some r) :
    LeafShape r := by
  rw [Predicate.union_def] at h
  cases hp with
  | tt =>
    cases h
    exact .tt
  | ff =>
    obtain rfl : q = r := by cases hq <;> exact Option.some.inj h
    exact hq
  | @under e he =>
    cases hq with
    | tt =>
      cases h
      exact .tt
    | ff =>
      cases h
      exact .under he
    | @under e' _ =>
      simp only [Componentwise.of, Predicate.splitQualification, bind_eq_bind, bind_some] at h
      obtain ⟨o, hjoin, h⟩ := bind_eq_some_iff.mp h
      obtain ⟨c, one, rfl, hb⟩ := joinComponents_leaf hjoin
      cases h
      exact leafShape_build hb

lemma LeafShape.intersect (hp : LeafShape p) (hq : LeafShape q)
    (h : Predicate.intersect p q = some r) : LeafShape r := by
  rw [Predicate.intersect_def] at h
  cases hp with
  | tt =>
    cases h
    exact hq
  | ff =>
    obtain rfl : Predicate.ff = r := by cases hq <;> simpa using h
    exact .ff
  | @under e he =>
    cases hq with
    | tt =>
      cases h
      exact .under he
    | ff =>
      cases h
      exact .ff
    | @under e' _ =>
      have htt : Predicate.intersect .tt .tt = some .tt := by rw [Predicate.intersect_def]
      obtain ⟨i, _, h⟩ : ∃ i, Predicate.intersect e e' = some i ∧
          Componentwise.qualified.build [i, .tt] = some r := by
        simpa [Componentwise.of, Predicate.splitQualification, htt, bind_eq_some_iff] using h
      exact leafShape_build h

lemma LeafShape.armWithoutCovered {covered : Predicate} (hp : LeafShape p)
    (h : Predicate.armWithoutCovered covered p = some r) : LeafShape r := by
  -- a leaf that names no path is kept or dropped
  have hplain : ∀ {q : Predicate}, LeafShape q →
      ((Predicate.subsumes covered .tt).bind fun all => if all then some Predicate.ff else some q) =
        some r → LeafShape r := by
    intro q hq h
    obtain ⟨b, _, h⟩ := bind_eq_some_iff.mp h
    split_ifs at h
    · cases h
      exact .ff
    · cases h
      exact hq
  cases hp with
  | tt => exact hplain .tt h
  | ff => exact hplain .ff h
  | @under e _ =>
    obtain ⟨rest, _, h⟩ := bind_eq_some_iff.mp h
    cases h
    exact leafShape_qualified rest

lemma LeafShape.withoutCovered {above : List Predicate} (hp : LeafShape p)
    (h : p.withoutCovered above = some o) : LeafShape (o.getD p) := by
  have harms : p.orArms = [p] := by cases hp <;> rfl
  rw [Predicate.withoutCovered, harms] at h
  obtain ⟨covered, _, h⟩ := bind_eq_some_iff.mp h
  split_ifs at h with hfalse
  · cases h
    exact hp
  obtain ⟨kept, hkept, h⟩ := bind_eq_some_iff.mp h
  obtain ⟨all, hall, ho⟩ := bind_eq_some_iff.mp h
  obtain ⟨a, ha, rfl⟩ : ∃ a, Predicate.armWithoutCovered covered p = some a ∧ [a] = kept := by
    simpa [bind_eq_some_iff] using hkept
  have hshape := hp.armWithoutCovered ha
  have hleaf : LeafShape all := by
    rw [Predicate.unionAll] at hall
    by_cases hempty : a.isFalse = true
    · obtain rfl : Predicate.ff = all := by simpa [hempty] using hall
      exact .ff
    · obtain rfl : a = all := by
        simpa [hempty, Predicate.flattenOr_singleton hshape.not_isOr] using hall
      exact hshape
  cases ho
  split_ifs
  · exact hp
  · exact hleaf

end Ops

/-! ## What holds inside a tiling -/

/-- A property of the tiling and of every tiling inside it. -/
inductive Everywhere (P : Tiling → Prop) : Tiling → Prop
  | scalar (h : P .scalar) : Everywhere P .scalar
  | aggregation (h : P .aggregation) : Everywhere P .aggregation
  | store {own : Extent} (h : P (.store own)) : Everywhere P (.store own)
  | dataFunction {own : Extent} {values : Tiling} (h : P (.dataFunction own values))
      (hvalues : Everywhere P values) : Everywhere P (.dataFunction own values)
  | record {tilings : List (String × Tiling)} (h : P (.record tilings))
      (ht : ∀ k t, (k, t) ∈ tilings → Everywhere P t) : Everywhere P (.record tilings)

/-- A property of every tiling strictly inside. -/
def Inside (P : Tiling → Prop) : Tiling → Prop
  | .dataFunction _ values => Everywhere P values
  | .record tilings => ∀ k t, (k, t) ∈ tilings → Everywhere P t
  | _ => True

lemma Everywhere.here (h : Everywhere P t) : P t := by cases h <;> assumption

lemma Everywhere.inside (h : Everywhere P t) : Inside P t := by
  cases h with
  | dataFunction _ h => exact h
  | record _ h => exact h
  | _ => trivial

lemma Inside.beneath (h : Inside P t) (hb : Beneath above t n above' t') : Inside P t' := by
  induction hb with
  | zero => exact h
  | succ _ ih => exact (ih h).inside

lemma Beneath.wellFormed (hb : Beneath above t n above' t') (hl : ∀ e ∈ above, e.WellFormed)
    (ht : t.WellFormed) : (∀ e ∈ above', e.WellFormed) ∧ t'.WellFormed := by
  induction hb with
  | zero => exact ⟨hl, ht⟩
  | succ _ ih =>
    obtain ⟨hl', ht'⟩ := ih ht
    cases ht' with
    | dataFunction hown hvalues => exact ⟨by simpa using ⟨hown, hl'⟩, hvalues⟩

lemma Beneath.length_le (hb : Beneath above t n above' t') : n ≤ above'.length := by
  induction hb with
  | zero => exact Nat.zero_le _
  | succ _ ih => simpa using ih

/-! ## Answers -/

/-- The answer is a guard over the tiling that covers the cells of `S`. -/
def Names (above : List Extent) (t : Tiling) (o : Option TileGuard)
    (S : List KeyPoint → List (Step KeyPoint) → Prop) : Prop :=
  ∃ g, o = some g ∧ IsOver above t g ∧ ∀ path cell, InLevels above path → CellOf InExtent t cell →
    (Covers Mem g path cell ↔ S path cell)

/-- The answer is some guards, at least one, that cover the cells of `S` together. -/
def NamesAll (above : List Extent) (t : Tiling) (o : Option (List TileGuard))
    (S : List KeyPoint → List (Step KeyPoint) → Prop) : Prop :=
  ∃ gs, o = some gs ∧ gs ≠ [] ∧ (∀ g ∈ gs, IsOver above t g) ∧
    ∀ path cell, InLevels above path → CellOf InExtent t cell →
      ((∃ g ∈ gs, Covers Mem g path cell) ↔ S path cell)

lemma Names.congr {o : Option TileGuard} (h : Names above t o S)
    (hS : ∀ path cell, InLevels above path → CellOf InExtent t cell →
      (S path cell ↔ S' path cell)) : Names above t o S' := by
  obtain ⟨g, hg, hover, hcov⟩ := h
  exact ⟨g, hg, hover, fun path cell hpath hcell =>
    (hcov path cell hpath hcell).trans (hS path cell hpath hcell)⟩

lemma NamesAll.congr {o : Option (List TileGuard)} (h : NamesAll above t o S)
    (hS : ∀ path cell, InLevels above path → CellOf InExtent t cell →
      (S path cell ↔ S' path cell)) : NamesAll above t o S' := by
  obtain ⟨gs, hgs, hne, hover, hcov⟩ := h
  exact ⟨gs, hgs, hne, hover, fun path cell hpath hcell =>
    (hcov path cell hpath hcell).trans (hS path cell hpath hcell)⟩

/-- What a leaf's predicate answers, the leaf does. -/
lemma IsLeaf.names (hleaf : IsLeaf t f) {o : Option Predicate} {S : List KeyPoint → Prop}
    (h : Returns (keyless :: above) (fun _ => True) o S) (hs : ∀ r, o = some r → LeafShape r) :
    Names above t (do return f (← o)) (fun path _ => S (.unit :: path)) := by
  obtain ⟨r, rfl, hover, _, hmem⟩ := h
  refine ⟨f r, rfl, hleaf.isOver (hs r rfl) hover, fun path cell hpath hcell => ?_⟩
  rw [hleaf.covers_iff (hs r rfl) hcell, hmem _ (.cons .unit hpath)]

lemma wellFormed_keyless (hl : ∀ e ∈ above, e.WellFormed) :
    ∀ e ∈ keyless :: above, e.WellFormed := by simpa using ⟨.base, hl⟩

lemma namesAll_singleton (hg : IsOver above t g) : NamesAll above t (some [g]) (Covers Mem g) :=
  ⟨[g], rfl, by simp, by simpa using hg, by simp⟩

lemma NamesAll.append {gs : List TileGuard} (h : NamesAll above t (some gs) S)
    (hg : IsOver above t g) :
    NamesAll above t (some (gs ++ [g]))
      (fun path cell => S path cell ∨ Covers Mem g path cell) := by
  obtain ⟨gs', hgs, hne, hover, hcov⟩ := h
  cases hgs
  refine ⟨_, rfl, by simp, ?_, fun path cell hpath hcell => ?_⟩
  · simpa [or_imp, forall_and] using ⟨hover, hg⟩
  · simp [← hcov path cell hpath hcell]

lemma NamesAll.flatten {α : Type} {xs : List α} (hne : xs ≠ []) {f : α → Option (List TileGuard)}
    {S : α → List KeyPoint → List (Step KeyPoint) → Prop}
    (h : ∀ x ∈ xs, NamesAll above t (f x) (S x)) :
    ∃ gss, xs.mapM f = some gss ∧
      NamesAll above t (some gss.flatten) (fun path cell => ∃ x ∈ xs, S x path cell) := by
  obtain ⟨gss, hgss, hall⟩ := mapM_eq_some_of_forall h
  refine ⟨gss, hgss, _, rfl, ?_, ?_, fun path cell hpath hcell => ?_⟩
  · obtain ⟨x, hx⟩ := exists_mem_of_ne_nil xs hne
    obtain ⟨gs, hgs, hne', _⟩ := exists_of_forall₂_mem_right hall.flip hx
    obtain ⟨g, hg⟩ := exists_mem_of_ne_nil gs hne'
    exact ne_nil_of_mem (mem_flatten.mpr ⟨gs, hgs, hg⟩)
  · intro g hg
    obtain ⟨gs, hgs, hg⟩ := mem_flatten.mp hg
    obtain ⟨x, hx, _, hover, _⟩ := exists_of_forall₂_mem_right hall hgs
    exact hover g hg
  · constructor
    · rintro ⟨g, hg, hcov⟩
      obtain ⟨gs, hgs, hg⟩ := mem_flatten.mp hg
      obtain ⟨x, hx, _, _, hiff⟩ := exists_of_forall₂_mem_right hall hgs
      exact ⟨x, hx, (hiff path cell hpath hcell).mp ⟨g, hg, hcov⟩⟩
    · rintro ⟨x, hx, hS⟩
      obtain ⟨gs, hgs, _, _, hiff⟩ := exists_of_forall₂_mem_right hall.flip hx
      obtain ⟨g, hg, hcov⟩ := (hiff path cell hpath hcell).mpr hS
      exact ⟨g, mem_flatten.mpr ⟨gs, hgs, hg⟩, hcov⟩

/-- A record answered field by field: `Φ` is what a cell of the answer has to do with one of the
record. -/
lemma mapM_record {f : String → TileGuard → Option TileGuard}
    {Φ : List KeyPoint → List (Step KeyPoint) → Prop → Prop → Prop}
    (hrec : IsOver above (.record tilings) (.record fields))
    (h : ∀ k g t, (k, g) ∈ fields → tilings.lookup k = some t → ∃ g', f k g = some g' ∧
      IsOver above t g' ∧ ∀ path cell, InLevels above path → CellOf InExtent t cell →
        Φ path (.field k :: cell) (Covers Mem g path cell) (Covers Mem g' path cell)) :
    ∃ fields', fields.mapM (fun kg => do return (kg.1, ← f kg.1 kg.2)) = some fields' ∧
      IsOver above (.record tilings) (.record fields') ∧
      ∀ path cell, InLevels above path → CellOf InExtent (.record tilings) cell →
        Φ path cell (Covers Mem (.record fields) path cell)
          (Covers Mem (.record fields') path cell) := by
  cases hrec with
  | record hasc hkeys hg =>
    have hfield : ∀ kg ∈ fields, ∃ kg', (do return (kg.1, ← f kg.1 kg.2)) = some kg' ∧
        (kg.1 = kg'.1 ∧ ∃ t, tilings.lookup kg.1 = some t ∧ IsOver above t kg'.2 ∧
          ∀ path cell, InLevels above path → CellOf InExtent t cell →
            Φ path (.field kg.1 :: cell) (Covers Mem kg.2 path cell)
              (Covers Mem kg'.2 path cell)) := by
      intro kg hkg
      obtain ⟨t, ht⟩ := exists_lookup_of_keys_eq hkeys hkg
      obtain ⟨g', hg', hspec⟩ := h kg.1 kg.2 t hkg ht
      exact ⟨(kg.1, g'), by simp [hg'], rfl, t, ht, hspec⟩
    obtain ⟨fields', hmap, hall⟩ := mapM_eq_some_of_forall hfield
    have hkeys' : fields.map (·.1) = fields'.map (·.1) := keys_eq_of_forall₂ (fun _ _ h => h.1) hall
    refine ⟨fields', hmap, .record ?_ (hkeys'.symm.trans hkeys) fun k g' t hmem ht => ?_,
      fun path cell hpath hcell => ?_⟩
    · rwa [KeysAscend, ← hkeys']
    · obtain ⟨kg, _, hkey, t', ht', hover, _⟩ := exists_of_forall₂_mem_right hall hmem
      rw [hkey] at ht'
      exact mem_unique ht' ht ▸ hover
    · obtain ⟨name, t, rest, rfl, ht, hrest⟩ := CellOf.exists_field hcell
      obtain ⟨g, hg⟩ := exists_lookup_of_cell hkeys ht
      obtain ⟨g', hg', _, t', ht', _, hcov⟩ := exists_lookup_of_forall₂ (fun _ _ h => h.1) hall hg
      obtain rfl := mem_unique ht ht'
      rw [covers_record hg, covers_record hg']
      exact hcov path rest hpath hrest

section Stages

variable [ScalarOps]

/-- The tiling is well formed, and unions over it cover what their parts do. -/
structure Normal (t : Tiling) : Prop where
  wellFormed : t.WellFormed
  flattenOr : ∀ {above : List Extent}, (∀ e ∈ above, e.WellFormed) → ∀ {arms : List TileGuard},
    arms ≠ [] → (∀ arm ∈ arms, IsOver above t arm) →
    Names above t (flattenOr arms) (fun path cell => ∃ arm ∈ arms, Covers Mem arm path cell)
  union : ∀ {above : List Extent}, (∀ e ∈ above, e.WellFormed) → ∀ {a b : TileGuard},
    IsOver above t a → IsOver above t b →
    Names above t (union a b) (fun path cell => Covers Mem a path cell ∨ Covers Mem b path cell)

/-! ## Without what the levels above name whole -/

/-- `g'` covers part of what `g` does, and all of it that is not covered above. -/
def KeepsCells (covered : List Predicate) (above : List Extent) (t : Tiling) (g g' : TileGuard) :
    Prop :=
  IsOver above t g' ∧ ∀ path cell, InLevels above path → CellOf InExtent t cell →
    (Covers Mem g' path cell → Covers Mem g path cell) ∧
    (Covers Mem g path cell → Covers Mem g' path cell ∨ Covered covered path)

variable {covered : List Predicate} {own : Extent} {arm : TileGuard}

lemma keepUncovered_spec (hl : ∀ e ∈ own :: above, e.WellFormed) (hs : StatedOver above covered)
    (hp : p.Over (own :: above)) :
    ∃ p', keepUncovered p covered = some p' ∧ Predicate.Keeps covered own above p p' ∧
      (LeafShape p → LeafShape p') := by
  obtain ⟨o, ho, hkeeps⟩ := Predicate.withoutCovered_spec hl hs hp
  exact ⟨o.getD p, by simp [keepUncovered, ho], hkeeps, fun hshape => hshape.withoutCovered ho⟩

lemma IsLeaf.keepsCells (hleaf : IsLeaf t f) (hl : ∀ e ∈ above, e.WellFormed)
    (hs : StatedOver above covered) (hshape : LeafShape p) (hp : p.Over (keyless :: above)) :
    ∃ p', keepUncovered p covered = some p' ∧ KeepsCells covered above t (f p) (f p') := by
  obtain ⟨p', hp', ⟨hover, hmem⟩, hshape'⟩ := keepUncovered_spec (wellFormed_keyless hl) hs hp
  refine ⟨p', hp', hleaf.isOver (hshape' hshape) hover, fun path cell hpath hcell => ?_⟩
  rw [hleaf.covers_iff hshape hcell, hleaf.covers_iff (hshape' hshape) hcell]
  exact hmem _ _ .unit hpath

/-- The fields of a record, each without what is covered. -/
lemma keepsFields_spec (hrec : IsOver above (.record tilings) (.record fields))
    (h : ∀ k g t, (k, g) ∈ fields → tilings.lookup k = some t →
      ∃ g', withoutCoveredKeys g covered = some g' ∧ KeepsCells covered above t g g') :
    ∃ fields',
      fields.mapM (fun kg => do return (kg.1, ← withoutCoveredKeys kg.2 covered)) = some fields' ∧
        KeepsCells covered above (.record tilings) (.record fields) (.record fields') :=
  mapM_record (f := fun _ g => withoutCoveredKeys g covered)
    (Φ := fun path _ c c' => (c' → c) ∧ (c → c' ∨ Covered covered path)) hrec h

/-- **Taking out what is covered above** loses covered cells alone. -/
theorem withoutCoveredKeys_spec (hl : ∀ e ∈ above, e.WellFormed) (ht : Everywhere Normal t)
    (hs : StatedOver above covered) (hg : IsOver above t g) :
    ∃ g', withoutCoveredKeys g covered = some g' ∧ KeepsCells covered above t g g' := by
  induction hg generalizing covered with
  | scalar hshape hp =>
    obtain ⟨p', hp', hkeeps⟩ := IsLeaf.scalar.keepsCells hl hs hshape hp
    exact ⟨.scalar p', by simp [withoutCoveredKeys_def, hp'], hkeeps⟩
  | aggregation hshape hp =>
    obtain ⟨p', hp', hkeeps⟩ := IsLeaf.aggregation.keepsCells hl hs hshape hp
    exact ⟨.aggregation p', by simp [withoutCoveredKeys_def, hp'], hkeeps⟩
  | @domain above t own p hlevel hp =>
    have hl' : ∀ e ∈ own :: above, e.WellFormed := by
      simpa using ⟨hlevel.wellFormed ht.here.wellFormed, hl⟩
    obtain ⟨p', hp', ⟨hover, hmem⟩, _⟩ := keepUncovered_spec hl' hs hp
    refine ⟨.domain p', by simp [withoutCoveredKeys_def, hp'], .domain hlevel hover,
      fun path cell hpath hcell => ?_⟩
    obtain ⟨k, rest, rfl, hk⟩ := hlevel.exists_key hcell
    rw [covers_domain, covers_domain]
    exact hmem _ _ hk hpath
  | @codomain above own values inner _ ih =>
    cases ht.here.wellFormed with
    | dataFunction hown _ =>
      obtain ⟨inner', hinner, hover, hcov⟩ :=
        ih (by simpa using ⟨hown, hl⟩) ht.inside (.cons .ff hs)
      refine ⟨.codomain inner', by rw [withoutCoveredKeys_def]; simp [hinner], .codomain hover,
        fun path cell hpath hcell => ?_⟩
      obtain ⟨k, rest, rfl, hk, hrest⟩ := CellOf.exists_key hcell
      rw [covers_codomain, covers_codomain]
      simpa [Covered] using hcov _ _ (.cons hk hpath) hrest
  | @record above tilings fields hasc hkeys hg ih =>
    obtain ⟨fields', hmap, hkeeps⟩ := keepsFields_spec (.record hasc hkeys hg) fun k g t hmem htk =>
      ih k g t hmem htk hl (ht.inside k t (mem_of_lookup_eq_some htk)) hs
    exact ⟨.record fields', by rw [withoutCoveredKeys_def]; simp only [hmap]; rfl, hkeeps⟩
  | @ofOr above t arms hne hg ih =>
    obtain ⟨arms', hmap, hall⟩ := mapM_eq_some_of_forall fun arm harm => ih arm harm hl ht hs
    have harms' : arms' ≠ [] := by
      rintro rfl
      exact hne (forall₂_nil_right_iff.mp hall)
    obtain ⟨g', hg', hover, hcov⟩ := ht.here.flattenOr hl harms' fun arm' harm' => by
      obtain ⟨_, _, hkeeps⟩ := exists_of_forall₂_mem_right hall harm'
      exact hkeeps.1
    refine ⟨g', by rw [withoutCoveredKeys_def]; simp [hmap, hg'], hover,
      fun path cell hpath hcell => ?_⟩
    rw [hcov path cell hpath hcell, covers_ofOr]
    constructor
    · rintro ⟨arm', harm', h⟩
      obtain ⟨arm, harm, hkeeps⟩ := exists_of_forall₂_mem_right hall harm'
      exact ⟨arm, harm, (hkeeps.2 path cell hpath hcell).1 h⟩
    · rintro ⟨arm, harm, h⟩
      obtain ⟨arm', harm', hkeeps⟩ := exists_of_forall₂_mem_right hall.flip harm
      exact ((hkeeps.2 path cell hpath hcell).2 h).imp_left fun h => ⟨arm', harm', h⟩

/-! ## Lifting -/

section Lift

variable {values : Tiling} {d : ℕ}

section Step

-- the chain is one level deeper than those that are lifted already
variable (hb : Beneath above t d above' (.dataFunction own values))
  (ih : ∀ q, Over (own :: above') q →
    NamesAll above t (lift (wrapGuard d (.domain q))) (Covers Mem (wrapGuard d (.domain q))))

include hb ih

/-- What a level's arm names whole is lifted to the level above; the rest stays. -/
lemma lift_domain {own₂ : Extent} (hl : ∀ e ∈ own₂ :: own :: above', e.WellFormed)
    (hlevel : IsLevel values own₂) (hp : Over (own₂ :: own :: above') p)
    (hu : (TileGuard.domain p).isUniversal = false) :
    NamesAll above t (lift (wrapGuard (d + 1) (.domain p)))
      (Covers Mem (wrapGuard (d + 1) (.domain p))) := by
  have hover : ∀ q, Over (own₂ :: own :: above') q →
      IsOver above t (wrapGuard (d + 1) (.domain q)) := fun q hq =>
    isOver_wrapGuard.mpr ⟨_, _, .succ hb, .domain hlevel hq⟩
  rw [lift_def, chainEnd_wrapGuard rfl]
  simp only [hu, Bool.false_eq_true, if_false]
  by_cases hwhole : (p.orArms.filter namesWhole).isEmpty = true
  · rw [if_pos hwhole]
    exact namesAll_singleton (hover p hp)
  rw [if_neg hwhole]
  -- an arm named whole, as the paths it is under
  have harm : ∀ arm ∈ p.orArms.filter namesWhole, Over (own :: above') arm.splitQualification.1 ∧
      ∀ k path, InExtent own₂ k → (Mem arm (k :: path) ↔ Mem arm.splitQualification.1 path) := by
    intro arm harm
    obtain ⟨hmem, hnames⟩ := mem_filter.mp harm
    have hover := hp.of_mem_orArms hmem
    cases hover with
    | ofQualified _ he hh =>
      refine ⟨he, fun k path hk => ?_⟩
      rw [Predicate.mem_ofQualified, Predicate.splitQualification]
      exact and_iff_left (Predicate.mem_of_isTrue hh hnames (inLevels_singleton.mpr hk))
    | _ => cases hnames
  have hsplit : ∀ k path, InExtent own₂ k → (Mem p (k :: path) ↔
      (∃ arm ∈ p.orArms.filter namesWhole, Mem arm.splitQualification.1 path) ∨
        ∃ arm ∈ p.orArms.filter fun arm => !namesWhole arm, Mem arm (k :: path)) := by
    intro k path hk
    have hnamed : (∃ arm ∈ p.orArms.filter namesWhole, Mem arm (k :: path)) ↔
        ∃ arm ∈ p.orArms.filter namesWhole, Mem arm.splitQualification.1 path :=
      exists_congr fun arm => and_congr_right fun hmem => (harm arm hmem).2 k path hk
    rw [Predicate.mem_iff_orArms, ← hnamed]
    simp only [mem_filter]
    grind
  obtain ⟨gss, hgss, hlifted⟩ := NamesAll.flatten (by simpa using hwhole) fun arm h =>
    ih _ (harm arm h).1
  rw [hgss, bind_eq_bind, bind_some]
  by_cases hpart : (p.orArms.filter fun arm => !namesWhole arm).isEmpty = true
  · rw [if_pos hpart]
    refine hlifted.congr fun path cell hpath hcell => ?_
    obtain ⟨k, path', rest, _, _, hrest, hcovd, hcov⟩ := exists_covers_step hb hpath hcell
    obtain ⟨k₂, rest', rfl, hk₂⟩ := hlevel.exists_key hrest
    simp only [hcovd, hcov, covers_domain, hsplit k₂ _ hk₂, List.isEmpty_iff.mp hpart,
      List.not_mem_nil, false_and, exists_false, or_false]
  · rw [if_neg hpart]
    have hparts : ∀ arm ∈ p.orArms.filter fun arm => !namesWhole arm,
        Over (own₂ :: own :: above') arm := fun arm hmem =>
      hp.of_mem_orArms (mem_filter.mp hmem).1
    obtain ⟨rest, hrest, hrover, _, hrmem⟩ :=
      (atoms_of_levels (by simp) hl).flattenOr_spec (by simpa using hpart) hparts
    rw [hrest]
    refine (hlifted.append (hover rest hrover)).congr fun path cell hpath hcell => ?_
    obtain ⟨k, path', rest', hk, hpath', hrest', hcovd, hcov⟩ := exists_covers_step hb hpath hcell
    obtain ⟨k₂, rest', rfl, hk₂⟩ := hlevel.exists_key hrest'
    simp only [hcovd, hcov, covers_domain, hsplit k₂ _ hk₂, hrmem _ (.cons hk₂ (.cons hk hpath'))]

/-- A leaf's rows are lifted to the keys of the level above. -/
lemma lift_rows (hs : LeafShape p) (hp : Over (keyless :: own :: above') p)
    (hleaf : IsLeaf values f) :
    NamesAll above t ((leafRows p).bind fun rows =>
        if rows.isFalse then some [wrapGuard (d + 1) (f p)] else lift (wrapGuard d (.domain rows)))
      (Covers Mem (wrapGuard (d + 1) (f p))) := by
  obtain ⟨rows, hrows, hover, hmem⟩ := hs.leafRows_over (by simp) hp
  rw [hrows, bind_some]
  split_ifs
  · exact namesAll_singleton (isOver_wrapGuard.mpr ⟨_, _, .succ hb, hleaf.isOver hs hp⟩)
  · refine (ih rows hover).congr fun path cell hpath hcell => ?_
    obtain ⟨k, path', rest, _, _, hrest, hcovd, hcov⟩ := exists_covers_step hb hpath hcell
    rw [hcovd, hcov, hleaf.covers_iff hs hrest, hmem]

/-- The rows every field names whole are lifted, and the fields keep the rest. -/
lemma liftRecord_spec (hl : ∀ e ∈ own :: above', e.WellFormed) (hvalues : values.WellFormed)
    (hin : Inside Normal values) (hrec : IsOver (own :: above') values (.record fields)) :
    NamesAll above t (liftRecord fields (d + 1))
      (Covers Mem (wrapGuard (d + 1) (.record fields))) := by
  cases hrec with
  | @record _ tilings _ hasc hkeys hg =>
    cases hvalues with
    | record _ htilings =>
      obtain ⟨whole, hwhole, hover, hall⟩ := wholeFields_spec (by simp) hl hkeys
        fun k g t hmem ht => wholeRows_spec (by simp) hl (htilings k t (mem_of_lookup_eq_some ht))
          (hg k g t hmem ht)
      rw [liftRecord_def, hwhole, bind_eq_bind, bind_some]
      split_ifs with hfalse
      · exact namesAll_singleton (isOver_wrapGuard.mpr ⟨_, _, .succ hb, .record hasc hkeys hg⟩)
      have hstated : StatedOver (own :: above') (whole :: List.replicate d .ff) :=
        .cons hover (Predicate.statedOver_replicate_ff hb.length_le)
      obtain ⟨rest, hmap, hrest, hkeeps⟩ := keepsFields_spec (.record hasc hkeys hg)
        fun k g t hmem htk => withoutCoveredKeys_spec hl (hin k t (mem_of_lookup_eq_some htk))
          hstated (hg k g t hmem htk)
      obtain ⟨lifted, hlift, hlifted⟩ := ih whole hover
      simp only [Nat.add_sub_cancel, hlift, bind_eq_bind, bind_some] at hmap ⊢
      rw [hmap, bind_some]
      -- the rows that are lifted, or what the fields keep
      have hcovers : ∀ path cell, InLevels (own :: above') path →
          CellOf InExtent (.record tilings) cell →
          (Mem whole path ∨ Covers Mem (.record rest) path cell ↔
            Covers Mem (.record fields) path cell) := by
        intro path cell hpath hcell
        have hkept := hkeeps path cell hpath hcell
        simp only [Covered, Predicate.not_covered_replicate_ff, or_false] at hkept
        constructor
        · rintro (h | h)
          · exact hall path hpath h cell hcell
          · exact hkept.1 h
        · exact fun h => (hkept.2 h).symm
      split_ifs with hempty
      · refine NamesAll.congr ⟨lifted, rfl, hlifted⟩ fun path cell hpath hcell => ?_
        obtain ⟨k, path', rest', hk, hpath', hrest', hcovd, hcov⟩ :=
          exists_covers_step hb hpath hcell
        rw [hcovd, hcov, ← hcovers _ _ (.cons hk hpath') hrest']
        simp [not_covers_of_isEmpty hrest hempty]
      · have hwrap := isOver_wrapGuard.mpr ⟨_, _, .succ hb, hrest⟩
        refine (NamesAll.append ⟨lifted, rfl, hlifted⟩ hwrap).congr fun path cell hpath hcell => ?_
        obtain ⟨k, path', rest', hk, hpath', hrest', hcovd, hcov⟩ :=
          exists_covers_step hb hpath hcell
        rw [hcovd, hcov, hcov, hcovers _ _ (.cons hk hpath') hrest']

end Step

/-- **Lifting** covers what the chain does. -/
theorem lift_spec {leaf : TileGuard} (hl : ∀ e ∈ above, e.WellFormed) (ht : t.WellFormed)
    (hin : Inside Normal t) (n : ℕ) (hend : leaf.chainEnd = (0, leaf))
    (hover : IsOver above t (wrapGuard n leaf)) :
    NamesAll above t (lift (wrapGuard n leaf)) (Covers Mem (wrapGuard n leaf)) := by
  induction n generalizing leaf with
  | zero =>
    rw [lift_def, chainEnd_wrapGuard hend]
    exact namesAll_singleton hover
  | succ d ih =>
    obtain ⟨_, values, hbs, hleaf⟩ := isOver_wrapGuard.mp hover
    cases hbs with
    | @succ above' _ _ _ own hb =>
      obtain ⟨hl', hdata⟩ := hb.wellFormed hl ht
      cases hdata with
      | dataFunction hown hvalues =>
        have hlo : ∀ e ∈ own :: above', e.WellFormed := by simpa using ⟨hown, hl'⟩
        have hdomain : ∀ q, Over (own :: above') q →
            NamesAll above t (lift (wrapGuard d (.domain q)))
              (Covers Mem (wrapGuard d (.domain q))) :=
          fun q hq => ih rfl (isOver_wrapGuard.mpr ⟨_, _, hb, .domain .dataFunction hq⟩)
        cases hu : leaf.isUniversal with
        | true =>
          rw [lift_def, chainEnd_wrapGuard hend]
          simp only [hu, if_true]
          refine (hdomain .tt .tt).congr fun path cell hpath hcell => ?_
          obtain ⟨k, path', rest, hk, hpath', hrest, hcovd, hcov⟩ :=
            exists_covers_step hb hpath hcell
          rw [hcovd, hcov]
          simp [covers_of_isUniversal hleaf hu (.cons hk hpath') hrest]
        | false =>
          have hlift := lift_def (wrapGuard (d + 1) leaf)
          rw [chainEnd_wrapGuard hend] at hlift
          simp only [hu, Bool.false_eq_true, if_false] at hlift
          cases hleaf with
          | codomain h => cases hend
          | ofOr hne h =>
            rw [hlift]
            exact namesAll_singleton hover
          | scalar hs hp =>
            rw [hlift]
            exact lift_rows hb hdomain hs hp .scalar
          | aggregation hs hp =>
            rw [hlift]
            exact lift_rows hb hdomain hs hp .aggregation
          | record hasc hkeys hg =>
            rw [hlift]
            exact liftRecord_spec hb hdomain hlo hvalues (hin.beneath hb.succ)
              (.record hasc hkeys hg)
          | domain hlevel hp =>
            exact lift_domain hb hdomain (by simpa using ⟨hlevel.wellFormed hvalues, hown, hl'⟩)
              hlevel hp hu

end Lift

/-! ## Arms at one place -/

section Place

lemma unionLeaf_spec (hl : ∀ e ∈ above, e.WellFormed) (hleaf : IsLeaf t f) (hps : LeafShape p)
    (hqs : LeafShape q) (hp : p.Over (keyless :: above)) (hq : q.Over (keyless :: above)) :
    Names above t (do return f (← Predicate.union p q))
      (fun path cell => Covers Mem (f p) path cell ∨ Covers Mem (f q) path cell) := by
  refine (hleaf.names ((atoms_of_levels (by simp) (wellFormed_keyless hl)).union_spec hp hq)
    fun _ => hps.union hqs).congr fun path cell _ hcell => ?_
  rw [hleaf.covers_iff hps hcell, hleaf.covers_iff hqs hcell]

variable {m₁ m₂ : List (String × TileGuard)} {merged : List TileGuard}

omit [ScalarOps] in
/-- Two records field by field: what `op` answers on two fields, the record answers on both. -/
lemma zipFields_names {op : TileGuard → TileGuard → Option TileGuard} {Q : Prop → Prop → Prop}
    (h₁ : IsOver above (.record tilings) (.record m₁))
    (h₂ : IsOver above (.record tilings) (.record m₂))
    (h : ∀ k t g g', tilings.lookup k = some t → (k, g) ∈ m₁ → (k, g') ∈ m₂ →
      IsOver above t g → IsOver above t g' → Names above t (op g g')
        (fun path cell => Q (Covers Mem g path cell) (Covers Mem g' path cell))) :
    Names above (.record tilings) (if m₁.length = m₂.length then do
        return .record (← m₁.mapM fun kg => do
          let other ← m₂.lookup kg.1
          return (kg.1, ← op kg.2 other))
      else none)
      (fun path cell =>
        Q (Covers Mem (.record m₁) path cell) (Covers Mem (.record m₂) path cell)) := by
  have hmap := mapM_record (f := fun k g => (m₂.lookup k).bind (op g))
    (Φ := fun path cell c r => r ↔ Q c (Covers Mem (.record m₂) path cell)) h₁
  cases h₁ with
  | record hasc₁ hkeys₁ hg₁ =>
    cases h₂ with
    | record hasc₂ hkeys₂ hg₂ =>
      have hkeys := hkeys₁.trans hkeys₂.symm
      have hlen : m₁.length = m₂.length := by simpa using congrArg List.length hkeys
      have hstep : (fun kg : String × TileGuard => do
          let other ← m₂.lookup kg.1
          return (kg.1, ← op kg.2 other)) =
          fun kg => do return (kg.1, ← (m₂.lookup kg.1).bind (op kg.2)) := by
        funext kg
        cases m₂.lookup kg.1 <;> rfl
      obtain ⟨fields, hmap, hover, hcov⟩ := hmap fun k g t hmem ht => by
        obtain ⟨g', hg'⟩ := exists_lookup_of_keys_eq hkeys hmem
        have hmem' := mem_of_lookup_eq_some hg'
        obtain ⟨r, hr, hover, hcov⟩ :=
          h k t g g' ht hmem hmem' (hg₁ k g t hmem ht) (hg₂ k g' t hmem' ht)
        refine ⟨r, by rw [hg', bind_some, hr], hover, fun path cell hpath hcell => ?_⟩
        rw [covers_record hg']
        exact hcov path cell hpath hcell
      rw [if_pos hlen, hstep, hmap]
      exact ⟨.record fields, rfl, hover, hcov⟩

lemma unionRecord_spec (hl : ∀ e ∈ above, e.WellFormed) (hin : Inside Normal (.record tilings))
    (h₁ : IsOver above (.record tilings) (.record m₁))
    (h₂ : IsOver above (.record tilings) (.record m₂)) :
    Names above (.record tilings) (union (.record m₁) (.record m₂))
      (fun path cell => Covers Mem (.record m₁) path cell ∨ Covers Mem (.record m₂) path cell) := by
  rw [union_def]
  exact zipFields_names (Q := Or) h₁ h₂ fun k t g g' ht _ _ hg hg' =>
    (hin k t (mem_of_lookup_eq_some ht)).here.union hl hg hg'

lemma unionDomain_spec (hl : ∀ e ∈ own :: above, e.WellFormed) (hlevel : IsLevel t own)
    (hp : p.Over (own :: above)) (hq : q.Over (own :: above)) :
    Names above t (do return .domain (← Predicate.union p q))
      (fun path cell => Covers Mem (.domain p) path cell ∨ Covers Mem (.domain q) path cell) := by
  obtain ⟨r, hr, hover, _, hmem⟩ := (atoms_of_levels (by simp) hl).union_spec hp hq
  refine ⟨.domain r, by simp [hr], .domain hlevel hover, fun path cell hpath hcell => ?_⟩
  obtain ⟨k, rest, rfl, hk⟩ := hlevel.exists_key hcell
  simp [covers_domain, hmem _ (.cons hk hpath)]

variable (hl : ∀ e ∈ above, e.WellFormed) (ht : t.WellFormed) (hin : Inside Normal t)

include hl ht hin

/-- **Two arms at one place** are one arm over what both name. -/
theorem unionInPlace_spec {a b : TileGuard} (ha : IsOver above t a) (hb : IsOver above t b)
    (hsame : samePlace a b = true) :
    Names above t (unionInPlace a b)
      (fun path cell => Covers Mem a path cell ∨ Covers Mem b path cell) := by
  induction ha generalizing b with
  | scalar hs hp =>
    cases hb with
    | scalar hs' hq =>
      rw [unionInPlace_def, union_def]
      exact unionLeaf_spec hl .scalar hs hs' hp hq
    | _ => cases hsame
  | aggregation hs hp =>
    cases hb with
    | aggregation hs' hq =>
      rw [unionInPlace_def, union_def]
      exact unionLeaf_spec hl .aggregation hs hs' hp hq
    | _ => cases hsame
  | domain hlevel hp =>
    cases hb with
    | domain hlevel' hq =>
      obtain rfl := hlevel.eq hlevel'
      rw [unionInPlace_def]
      exact unionDomain_spec (by simpa using ⟨hlevel.wellFormed ht, hl⟩) hlevel hp hq
    | _ => cases hsame
  | codomain _ ih =>
    cases hb with
    | codomain hb =>
      cases ht with
      | dataFunction hown hvalues =>
        obtain ⟨r, hr, hover, hcov⟩ := ih (by simpa using ⟨hown, hl⟩) hvalues hin.inside hb
          (by simpa [samePlace] using hsame)
        refine ⟨.codomain r, by rw [unionInPlace_def]; simp [hr], .codomain hover,
          fun path cell hpath hcell => ?_⟩
        obtain ⟨k, rest, rfl, hk, hrest⟩ := CellOf.exists_key hcell
        simp [covers_codomain, hcov _ _ (.cons hk hpath) hrest]
    | _ => cases hsame
  | record hasc hkeys hg _ =>
    cases hb with
    | record hasc' hkeys' hg' =>
      rw [unionInPlace_def]
      exact unionRecord_spec hl hin (.record hasc hkeys hg) (.record hasc' hkeys' hg')
    | _ => cases hsame
  | ofOr => cases hsame

/-- One arm among the arms so far: united with the one at its place, or put last. -/
def mergeInto (merged : List TileGuard) (arm : TileGuard) : Option (List TileGuard) :=
  match merged.findIdx? fun g => samePlace g arm with
  | some i => do
    let g ← merged[i]?
    return merged.set i (← unionInPlace g arm)
  | none => some (merged ++ [arm])

lemma mergeInto_spec (hmerged : ∀ g ∈ merged, IsOver above t g) (harm : IsOver above t arm) :
    NamesAll above t (mergeInto merged arm)
      (fun path cell => (∃ g ∈ merged, Covers Mem g path cell) ∨ Covers Mem arm path cell) := by
  rw [mergeInto]
  cases hfind : merged.findIdx? fun g => samePlace g arm with
  | none =>
    refine ⟨_, rfl, by simp, ?_, fun path cell _ _ => ?_⟩
    · simpa [or_imp, forall_and] using ⟨hmerged, harm⟩
    · simp [or_and_right, exists_or]
  | some i =>
    obtain ⟨hi, hsame, _⟩ := findIdx?_eq_some_iff_getElem.mp hfind
    obtain ⟨u, hu, hover, hcov⟩ := unionInPlace_spec hl ht hin
      (hmerged _ (getElem_mem hi)) harm hsame
    -- the arms around the one at this place
    have hset : merged.set i u = merged.take i ++ u :: merged.drop (i + 1) :=
      set_eq_take_append_cons_drop.trans (if_pos hi)
    have hsplit : merged = merged.take i ++ merged[i] :: merged.drop (i + 1) := by
      rw [getElem_cons_drop, take_append_drop]
    refine ⟨merged.set i u, by simp [hi, hu], by simp [hset], fun g hg => ?_,
      fun path cell hpath hcell => ?_⟩
    · rcases mem_or_eq_of_mem_set hg with hg | rfl
      · exact hmerged g hg
      · exact hover
    · simp only [hset, mem_append, List.mem_cons, or_and_right, exists_or, exists_eq_left,
        hcov path cell hpath hcell]
      conv_rhs => rw [hsplit]
      simp only [mem_append, List.mem_cons, or_and_right, exists_or, exists_eq_left]
      simp only [or_left_comm, or_comm]

lemma foldlM_mergeInto_spec {flat : List TileGuard} (hne : merged ≠ [] ∨ flat ≠ [])
    (hmerged : ∀ g ∈ merged, IsOver above t g) (hflat : ∀ g ∈ flat, IsOver above t g) :
    NamesAll above t (flat.foldlM mergeInto merged)
      (fun path cell => (∃ g ∈ merged, Covers Mem g path cell) ∨
        ∃ g ∈ flat, Covers Mem g path cell) := by
  induction flat generalizing merged with
  | nil => exact ⟨merged, rfl, by simpa using hne, hmerged, by simp⟩
  | cons arm flat ih =>
    obtain ⟨next, hnext, hnextne, hover, hcov⟩ :=
      mergeInto_spec hl ht hin hmerged (hflat arm (by simp))
    rw [foldlM_cons, hnext, bind_eq_bind, bind_some]
    refine (ih (.inl hnextne) hover fun g hg => hflat g (by simp [hg])).congr
      fun path cell hpath hcell => ?_
    simp only [hcov path cell hpath hcell, or_assoc, List.mem_cons, or_and_right, exists_or,
      exists_eq_left]

end Place

/-! ## Arms beneath keys a shallower arm names -/

section Prune

/-- What stands at a level, in a list outermost first, is a statement over its paths. -/
def StandsAt (above : List Extent) (t : Tiling) (L : List Predicate) : Prop :=
  ∀ (e : ℕ) p above' own values, L[e]? = some p →
    Beneath above t e above' (.dataFunction own values) → Over (own :: above') p

variable {L : List Predicate} {d : ℕ}

omit [ScalarOps] in
lemma StandsAt.statedOver (hL : StandsAt above t L) (hb : Beneath above t d above' t')
    (hd : d ≤ L.length) : StatedOver above' (L.take d).reverse := by
  induction hb with
  | zero => exact .nil
  | succ hb ih =>
    rw [take_succ_eq_append_getElem hd, reverse_append]
    exact .cons (hL _ _ _ _ _ (getElem?_eq_getElem hd) hb) (ih hL (Nat.le_of_succ_le hd))

omit [ScalarOps] in
/-- A path covered by what stands above it is under a key some level names. -/
lemma exists_covers_of_covered (hb : Beneath above t d above' t') (hd : d ≤ L.length)
    {path : List KeyPoint} (hpath : InLevels above path) {cell : List (Step KeyPoint)}
    (hcell : CellOf InExtent t cell) :
    ∃ path' rest, InLevels above' path' ∧ CellOf InExtent t' rest ∧
      (∀ g, Covers Mem (wrapGuard d g) path cell ↔ Covers Mem g path' rest) ∧
      (Covered (L.take d).reverse path' →
        ∃ e p, e < d ∧ L[e]? = some p ∧ Covers Mem (wrapGuard e (.domain p)) path cell) := by
  induction hb with
  | zero => exact ⟨path, cell, hpath, hcell, fun g => Iff.rfl, by simp [Covered]⟩
  | @succ above' _ _ n own hb ih =>
    obtain ⟨path', rest, hpath', hrest, hcov, hcovered⟩ := ih (Nat.le_of_succ_le hd) hcell
    obtain ⟨k, rest, rfl, hk, hrest⟩ := CellOf.exists_key hrest
    refine ⟨k :: path', rest, .cons hk hpath', hrest, fun g => ?_, fun h => ?_⟩
    · rw [wrapGuard_succ, hcov, covers_codomain]
    · rw [take_succ_eq_append_getElem hd, reverse_append] at h
      rcases h with h | h
      · refine ⟨n, _, Nat.lt_succ_self n, getElem?_eq_getElem hd, ?_⟩
        rw [hcov, covers_domain]
        exact h
      · obtain ⟨e, p, he, hp, h⟩ := hcovered h
        exact ⟨e, p, Nat.lt_succ_of_lt he, hp, h⟩

/-- `arm'` covers part of what `arm` does, and all of it that is under no key of a shallower
level. -/
def PrunedTo (above : List Extent) (t : Tiling) (L : List Predicate) (arm arm' : TileGuard) :
    Prop :=
  IsOver above t arm' ∧ ∀ path cell, InLevels above path → CellOf InExtent t cell →
    (Covers Mem arm' path cell → Covers Mem arm path cell) ∧
    (Covers Mem arm path cell → Covers Mem arm' path cell ∨
      ∃ d p e q, domainAt arm = some (d, p) ∧ e < d ∧ L[e]? = some q ∧
        Covers Mem (wrapGuard e (.domain q)) path cell)

/-- One arm loses cells under keys a shallower level names, and no others. -/
lemma armWithoutCovered_spec (hl : ∀ e ∈ above, e.WellFormed) (ht : t.WellFormed)
    (hL : StandsAt above t L) (harm : IsOver above t arm)
    (hlen : ∀ d p, domainAt arm = some (d, p) → d ≤ L.length) :
    ∃ arm', armWithoutCovered L arm = some arm' ∧ PrunedTo above t L arm arm' := by
  have hsame : PrunedTo above t L arm arm := ⟨harm, fun path cell _ _ => ⟨id, .inl⟩⟩
  rw [armWithoutCovered]
  cases hat : domainAt arm with
  | none => exact ⟨arm, rfl, hsame⟩
  | some at_ =>
    obtain ⟨d, p⟩ := at_
    by_cases hd : 0 < d
    · have hwrap := eq_wrapGuard_of_domainAt hat
      rw [hwrap] at harm
      obtain ⟨above', t', hb, hdomain⟩ := isOver_wrapGuard.mp harm
      obtain ⟨hl', ht'⟩ := hb.wellFormed hl ht
      cases hdomain with
      | @domain _ _ own _ hlevel hp =>
        have hlo : ∀ e ∈ own :: above', e.WellFormed := by simpa using ⟨hlevel.wellFormed ht', hl'⟩
        have hdl := hlen d p hat
        obtain ⟨o, ho, hover, hkeeps⟩ := Predicate.withoutCovered_spec hlo (hL.statedOver hb hdl) hp
        have hstep : o.elim (some arm) (withDomain arm) =
            some (wrapGuard d (.domain (o.getD p))) := by
          rw [hwrap]
          cases o with
          | none => rfl
          | some kept => exact withDomain_wrapGuard d p kept
        simp only [if_pos hd, ho, bind_eq_bind, bind_some, hstep]
        refine ⟨_, rfl, isOver_wrapGuard.mpr ⟨_, _, hb, .domain hlevel hover⟩,
          fun path cell hpath hcell => ?_⟩
        obtain ⟨path', rest, hpath', hrest, hcov, hcovered⟩ :=
          exists_covers_of_covered hb hdl hpath hcell
        obtain ⟨k, rest', rfl, hk⟩ := hlevel.exists_key hrest
        have hkept := hkeeps k path' hk hpath'
        rw [hwrap, hcov, hcov, covers_domain, covers_domain]
        refine ⟨hkept.1, fun h => (hkept.2 h).imp_right fun hc => ?_⟩
        obtain ⟨e, q, he, hq, h⟩ := hcovered hc
        exact ⟨d, p, e, q, by rw [← hwrap, hat], he, hq, h⟩
    · exact ⟨arm, by simp [hd], hsame⟩

/-- **Pruning the arms** of what shallower ones name whole loses nothing. -/
theorem withoutCoveredArms_spec (hl : ∀ e ∈ above, e.WellFormed) (ht : t.WellFormed)
    {arms : List TileGuard} (hne : arms ≠ []) (harms : ∀ g ∈ arms, IsOver above t g) :
    NamesAll above t (withoutCoveredArms arms)
      (fun path cell => ∃ g ∈ arms, Covers Mem g path cell) := by
  rw [withoutCoveredArms]
  cases hmax : ((arms.filterMap domainAt).map (·.1)).max? with
  | none => exact ⟨arms, rfl, hne, harms, fun _ _ _ _ => Iff.rfl⟩
  | some deepest =>
    obtain ⟨hlength, hwhole⟩ := wholeAbove_spec (arms.filterMap domainAt) deepest
    -- what stands at a level is an arm's, so a statement over its paths
    have hentry : ∀ (e : ℕ) p, (wholeAbove (arms.filterMap domainAt) deepest)[e]? = some p →
        p = .ff ∨ wrapGuard e (.domain p) ∈ arms := by
      intro e p he
      refine (hwhole e p he).imp_right fun hmem => ?_
      obtain ⟨arm, harm, hat⟩ := mem_filterMap.mp hmem
      rwa [← eq_wrapGuard_of_domainAt hat]
    have hL : StandsAt above t (wholeAbove (arms.filterMap domainAt) deepest) := by
      intro e p above' own values he hb
      rcases hentry e p he with rfl | hmem
      · exact .ff
      · obtain ⟨_, _, hb', hdomain⟩ := isOver_wrapGuard.mp (harms _ hmem)
        obtain ⟨rfl, rfl⟩ := hb.eq hb'
        cases hdomain with
        | domain hlevel hp =>
          cases hlevel
          exact hp
    have hdeep : ∀ arm ∈ arms, ∀ d p, domainAt arm = some (d, p) →
        d ≤ (wholeAbove (arms.filterMap domainAt) deepest).length := by
      intro arm harm d p hat
      have hle := (max?_eq_some_iff.mp hmax).2 d
        (mem_map.mpr ⟨(d, p), mem_filterMap.mpr ⟨arm, harm, hat⟩, rfl⟩)
      omega
    obtain ⟨pruned, hpruned, hall⟩ := mapM_eq_some_of_forall fun arm harm =>
      armWithoutCovered_spec hl ht hL (harms arm harm) (hdeep arm harm)
    have hover : ∀ g ∈ pruned, IsOver above t g := by
      intro g hg
      obtain ⟨_, _, hover, _⟩ := exists_of_forall₂_mem_right hall hg
      exact hover
    have hprunedne : pruned ≠ [] := by
      rintro rfl
      exact hne (forall₂_nil_right_iff.mp hall)
    -- a cell an arm at a depth below `n` covers is kept, by the shallowest that covers it
    have hkept : ∀ n, ∀ arm ∈ arms, (∀ d p, domainAt arm = some (d, p) → d < n) →
        ∀ path cell, InLevels above path → CellOf InExtent t cell → Covers Mem arm path cell →
          ∃ g ∈ pruned, Covers Mem g path cell := by
      intro n
      induction n using Nat.strong_induction_on with
      | h n ih =>
        intro arm harm hdepth path cell hpath hcell h
        obtain ⟨arm', harm', _, hcov⟩ := exists_of_forall₂_mem_right hall.flip harm
        rcases (hcov path cell hpath hcell).2 h with h | ⟨d, p, e, q, hat, hlt, hq, h⟩
        · exact ⟨arm', harm', h⟩
        · rcases hentry e q hq with rfl | hmem
          · exact absurd h not_covers_wrapGuard_ff
          · refine ih d (hdepth d p hat) _ hmem (fun d' p' hat' => ?_) path cell hpath hcell h
            rw [domainAt_wrapGuard] at hat'
            cases hat'
            exact hlt
    obtain ⟨hdropne, hdrop, hdropcov⟩ := dropEmpty_spec hprunedne hover
    refine ⟨dropEmpty pruned, by simp [hpruned], hdropne, fun g hg => hover g (hdrop g hg),
      fun path cell hpath hcell => ?_⟩
    rw [hdropcov]
    constructor
    · rintro ⟨g, hg, h⟩
      obtain ⟨arm, harm, _, hcov⟩ := exists_of_forall₂_mem_right hall hg
      exact ⟨arm, harm, (hcov path cell hpath hcell).1 h⟩
    · rintro ⟨arm, harm, h⟩
      refine hkept (deepest + 2) arm harm (fun d p hat => ?_) path cell hpath hcell h
      have := hdeep arm harm d p hat
      omega

end Prune

end Stages

end TileGuard

end Cambra
