import Cambra.Tiling.Restate

/-!
# Dropping completion that a level above already states

A collection level that calls a path complete says so of everything beneath it, so a statement
further in about such a path is redundant.  `without_covered` takes it out of one predicate, and
`drop_covered_completion` out of every level of a tile, outermost first.

The statements of the levels above are a list, innermost first, and what they cover together is
`Covered`: a path one of them admits a prefix of.  Each level is pruned against the statements above
it as they are after their own pruning; those cover what they did before (`Agree`), so nothing a
level was excused from stating is lost.

## Main results

* `withoutCovered_spec`: pruning keeps part of a predicate, and all of it that is not covered.
* `completion_kept`: the same on values, and `completion_at` answers alike before and after
  `drop_covered_completion` at every level of every tile.
-/

namespace Cambra

open List

namespace Predicate

/-! ## Definitions -/

section Definitions

variable [ScalarOps]

/-- This region of paths read `levels` levels further in. -/
def descend (self : Predicate) : ℕ → Predicate
  | 0 => self
  | levels + 1 => qualified (self.descend levels) .tt

/-- The paths reaching a level's keys that the statements of the levels above cover: each read so
many levels further in as it stands above. -/
def coveredPaths (above : List Predicate) : Option Predicate :=
  unionOver (fun whole => some (whole.1.descend whole.2)) above.zipIdx.reverse

/-- One arm, without the covered paths. -/
def armWithoutCovered (covered : Predicate) : Predicate → Option Predicate
  | .ofQualified enclosing here => do return qualified (← minus enclosing covered) here
  | unqualified => do if ← subsumes covered .tt then some .ff else some unqualified

/-- This predicate, over the keys of level `above.length`, without the regions the levels `above`
already name whole, or `none` inside where it keeps all of them. -/
def withoutCovered (self : Predicate) (above : List Predicate) : Option (Option Predicate) := do
  let covered ← coveredPaths above
  if covered.isFalse then some none
  else do
    let kept ← self.orArms.mapM (armWithoutCovered covered)
    let kept ← unionAll (kept.filter fun arm => !arm.isFalse)
    some (if kept = self then none else some kept)

end Definitions

end Predicate

/-- A tile, by what its completion depends on: the collection levels with what each calls complete,
and the records between them.  The keys of a level, what a record holds beside its fields, and the
tiles that state nothing (scalars, aggregates, stores) are carried along unread. -/
inductive Tile (K R L : Type) where
  | leaf (content : L)
  | record (fields : List (String × Tile K R L)) (rest : R)
  | dataFunction (keys : K) (codomain : Tile K R L) (domainPredicate : Predicate)

/-- The static shape of a tile: its levels, by their key extents, and what stands over their rows.
A store's positions are a level, and what it holds at each is read by folding, not by levels. -/
inductive Tiling where
  | scalar
  | aggregation
  | store (domain : Extent)
  | record (fields : List (String × Tiling))
  | dataFunction (domain : Extent) (codomain : Tiling)

namespace Tile

variable {K R L : Type}

mutual

/-- Some level of the tile names an enclosing path. -/
def statesAQualified : Tile K R L → Bool
  | .leaf _ => false
  | .record fields _ => anyStatesAQualified fields
  | .dataFunction _ codomain domainPredicate =>
    domainPredicate.qualifies || statesAQualified codomain

/-- Some level of a field does. -/
def anyStatesAQualified : List (String × Tile K R L) → Bool
  | [] => false
  | (_, field) :: rest => statesAQualified field || anyStatesAQualified rest

end

section Definitions

variable [ScalarOps]

mutual

/-- Each level without what `above`, the statements of the levels above it, covers. -/
def dropCovered : Tile K R L → List Predicate → Option (Tile K R L)
  | .leaf content, _ => some (.leaf content)
  | .record fields rest, above => do return .record (← dropCoveredFields fields above) rest
  | .dataFunction keys codomain domainPredicate, above => do
    let kept := (← domainPredicate.withoutCovered above).getD domainPredicate
    return .dataFunction keys (← dropCovered codomain (kept :: above)) kept

/-- `dropCovered` in the fields of a record, which stand over the same rows. -/
def dropCoveredFields :
    List (String × Tile K R L) → List Predicate → Option (List (String × Tile K R L))
  | [], _ => some []
  | (name, field) :: rest, above => do
    return (name, ← dropCovered field above) :: (← dropCoveredFields rest above)

end

/-- Drop the completion a level above already states. -/
def dropCoveredCompletion (tile : Tile K R L) : Option (Tile K R L) :=
  if tile.statesAQualified then tile.dropCovered [] else some tile

/-- What is complete through one more level: `complete` is what the levels so far say, `none` before
the outermost. -/
def completeThrough (complete : Option Predicate) (domainPredicate : Predicate) :
    Option Predicate :=
  match complete with
  | none => some domainPredicate
  | some complete => Predicate.union (complete.descend 1) domainPredicate

/-- The loop of `completion_at`. -/
def completionFrom : Tile K R L → Option Predicate → ℕ → Option Predicate
  | .dataFunction _ codomain domainPredicate, complete, level => do
    let complete ← completeThrough complete domainPredicate
    match level with
    | 0 => some complete
    | level + 1 => completionFrom codomain (some complete) level
  | _, _, _ => none

/-- Which paths through `level` are complete, over whole paths. -/
def completionAt (tile : Tile K R L) (level : ℕ) : Option Predicate :=
  completionFrom tile none level

end Definitions

end Tile

variable {above : List Predicate} {levels : List Extent} {p : Predicate}

namespace Predicate

/-! ## What the levels above cover -/

/-- A statement of some level admits the path as far as that level. -/
def Covered : List Predicate → List KeyPoint → Prop
  | [], _ => False
  | whole :: above, path => Mem whole path ∨ Covered above path.tail

/-- Statements over the innermost levels, one each, innermost first. -/
inductive StatedOver : List Extent → List Predicate → Prop
  | nil {levels : List Extent} : StatedOver levels []
  | cons {own : Extent} {levels : List Extent} {whole : Predicate} {above : List Predicate}
      (h : Over (own :: levels) whole) (hs : StatedOver levels above) :
      StatedOver (own :: levels) (whole :: above)

lemma covered_iff {path : List KeyPoint} :
    Covered above path ↔ ∃ (i : ℕ) (whole : Predicate), above[i]? = some whole ∧
      Mem whole (path.drop i) := by
  induction above generalizing path with
  | nil => simp [Covered]
  | cons own above ih =>
    rw [Covered, ih]
    refine Iff.trans ?_ Nat.or_exists_add_one
    simp

lemma StatedOver.at_ (h : StatedOver levels above) {i : ℕ} {whole : Predicate}
    (hi : above[i]? = some whole) : i < levels.length ∧ Over (levels.drop i) whole := by
  induction h generalizing i with
  | nil => simp at hi
  | cons hw _ ih =>
    cases i with
    | zero =>
      obtain rfl : _ = whole := by simpa using hi
      exact ⟨by simp, by simpa using hw⟩
    | succ i =>
      obtain ⟨hlt, hover⟩ := ih (by simpa using hi)
      exact ⟨by simpa using hlt, by simpa using hover⟩

lemma not_covered_replicate_ff (n : ℕ) (path : List KeyPoint) :
    ¬Covered (List.replicate n .ff) path := by
  induction n generalizing path with
  | zero => simp [Covered]
  | succ n ih => simpa [replicate_succ, Covered] using ih path.tail

lemma statedOver_replicate_ff {n : ℕ} (hn : n ≤ levels.length) :
    StatedOver levels (List.replicate n .ff) := by
  induction n generalizing levels with
  | zero => exact .nil
  | succ n ih =>
    obtain ⟨own, levels, rfl⟩ := exists_cons_of_length_pos (Nat.zero_lt_of_lt hn)
    exact .cons .ff (ih (by simpa using hn))

/-- A statement read further in admits the paths that extend one of its own. -/
lemma descend_spec {n : ℕ} (hn : n < levels.length) (hp : Over (levels.drop n) p) :
    Over levels (p.descend n) ∧
      ∀ x, InLevels levels x → (Mem (p.descend n) x ↔ Mem p (x.drop n)) := by
  induction n generalizing levels with
  | zero => exact ⟨by simpa [descend] using hp, fun x _ => by simp [descend]⟩
  | succ n ih =>
    obtain ⟨own, above, rfl⟩ := exists_cons_of_length_pos (Nat.zero_lt_of_lt hn)
    obtain ⟨hover, hmem⟩ := ih (by simpa using hn) (by simpa using hp)
    obtain ⟨hqover, hqmem⟩ := qualified_spec (.inr hover) (.tt : Over [own] .tt)
    refine ⟨hqover, fun x hx => ?_⟩
    obtain ⟨k, ks, rfl, _, hks⟩ := hx.exists_cons
    rw [descend, hqmem k ks hks, hmem ks hks]
    simp

variable {own : Extent}

section Prune

variable [ScalarOps]

/-- **The covered paths** are those some statement above covers. -/
lemma coveredPaths_spec (hne : levels ≠ []) (hl : ∀ e ∈ levels, e.WellFormed)
    (h : StatedOver levels above) :
    Returns levels (fun _ => True) (coveredPaths above) (Covered above) := by
  have hone : ∀ w ∈ above.zipIdx.reverse, Returns levels (fun _ => True)
      (some (w.1.descend w.2)) (fun x => Mem w.1 (x.drop w.2)) := by
    rintro ⟨whole, i⟩ hw
    rw [mem_reverse, mem_zipIdx_iff_getElem?] at hw
    obtain ⟨hlt, hover⟩ := h.at_ hw
    obtain ⟨hdover, hmem⟩ := descend_spec hlt hover
    exact ⟨_, rfl, hdover, trivial, hmem⟩
  refine (unionOver_spec (atoms_of_levels hne hl) hne hone).congr fun x _ => ?_
  rw [covered_iff, exists_comm]
  simp only [Prod.exists, mem_reverse, mem_zipIdx_iff_getElem?]

/-- One arm loses covered paths, and no others. -/
lemma armWithoutCovered_spec (hne : levels ≠ []) (hl : ∀ e ∈ levels, e.WellFormed)
    {covered : Predicate} (hc : Over levels covered) {arm : Predicate}
    (harm : Over (own :: levels) arm) :
    ∃ r, armWithoutCovered covered arm = some r ∧ Over (own :: levels) r ∧
      ∀ x xs, InLevels levels xs → (Mem r (x :: xs) → Mem arm (x :: xs)) ∧
        (Mem arm (x :: xs) → Mem r (x :: xs) ∨ Mem covered xs) := by
  have hatoms := atoms_of_levels hne hl
  cases hq : arm.isQualified with
  | true =>
    cases harm with
    | ofQualified _ he hh =>
      obtain ⟨rest, hrest, hover, _, hmem⟩ := hatoms.minus_spec he hc
      obtain ⟨hqover, hqmem⟩ := qualified_spec (.inr hover) hh
      refine ⟨_, by rw [armWithoutCovered, hrest]; rfl, hqover, fun x xs hxs => ?_⟩
      simp only [hqmem x xs hxs, hmem xs hxs, mem_ofQualified]
      tauto
    | _ => cases hq
  | false =>
    have hstep : armWithoutCovered covered arm =
        (subsumes covered .tt).bind fun all => if all then some .ff else some arm := by
      cases arm <;> simp_all [armWithoutCovered, isQualified]
    obtain ⟨all, hall, hiff⟩ := hatoms.subsumes_spec hc (Over.tt_of_ne_nil hne)
    rw [hstep, hall, Option.bind_some]
    cases all with
    | true =>
      refine ⟨.ff, rfl, .ff, fun x xs hxs => ⟨by simp, fun _ => .inr ?_⟩⟩
      exact hiff.mp rfl xs hxs (mem_tt.mpr trivial)
    | false => exact ⟨arm, rfl, harm, fun x xs _ => ⟨id, .inl⟩⟩

/-- What pruning keeps, over the statements above. -/
def Keeps (above : List Predicate) (own : Extent) (levels : List Extent) (p kept : Predicate) :
    Prop :=
  Over (own :: levels) kept ∧ ∀ x xs, InExtent own x → InLevels levels xs →
    (Mem kept (x :: xs) → Mem p (x :: xs)) ∧
    (Mem p (x :: xs) → Mem kept (x :: xs) ∨ Covered above xs)

/-- **Pruning keeps part of a predicate, and all of it that is not covered.** -/
theorem withoutCovered_spec (hl : ∀ e ∈ own :: levels, e.WellFormed) (h : StatedOver levels above)
    (hp : Over (own :: levels) p) :
    ∃ o, p.withoutCovered above = some o ∧ Keeps above own levels p (o.getD p) := by
  have hsame : Keeps above own levels p p := ⟨hp, fun x xs _ _ => ⟨id, .inl⟩⟩
  by_cases hne : levels = []
  · subst hne
    cases h
    exact ⟨none, by simp [withoutCovered, coveredPaths, unionOver, isFalse, asBool], hsame⟩
  have hlo : ∀ e ∈ levels, e.WellFormed := fun e he => hl e (by simp [he])
  obtain ⟨covered, hcov, hcover, _, hcmem⟩ := coveredPaths_spec hne hlo h
  simp only [withoutCovered, hcov, Option.bind_eq_bind, Option.bind_some]
  by_cases hfalse : covered.isFalse = true
  · exact ⟨none, by simp [hfalse], hsame⟩
  obtain ⟨pruned, hpruned, hall⟩ := mapM_eq_some_of_forall fun a ha =>
    armWithoutCovered_spec hne hlo hcover (hp.of_mem_orArms ha)
  have hover : ∀ r ∈ pruned, Over (own :: levels) r := fun r hr => by
    obtain ⟨_, _, hr, _⟩ := exists_of_forall₂_mem_right hall hr
    exact hr
  have hfilter : ∀ r ∈ pruned.filter (fun arm => !arm.isFalse), Over (own :: levels) r :=
    fun r hr => hover r (mem_filter.mp hr).1
  obtain ⟨kept, hkept, hkover, _, hkmem⟩ :=
    (atoms_of_levels (cons_ne_nil own levels) hl).unionAll_spec (by simp) hfilter
  have hkeeps : Keeps above own levels p kept := by
    refine ⟨hkover, fun x xs hx hxs => ?_⟩
    rw [(hkmem _ (.cons hx hxs)).trans (exists_mem_not_isFalse hover), mem_iff_orArms (p := p)]
    constructor
    · rintro ⟨r, hr, hmem⟩
      obtain ⟨a, ha, _, hrel⟩ := exists_of_forall₂_mem_right hall hr
      exact ⟨a, ha, (hrel x xs hxs).1 hmem⟩
    · rintro ⟨a, ha, hmem⟩
      obtain ⟨r, hr, _, hrel⟩ := exists_of_forall₂_mem_right hall.flip ha
      exact ((hrel x xs hxs).2 hmem).imp (fun hmem => ⟨r, hr, hmem⟩) (hcmem xs hxs).mp
  rw [if_neg hfalse, hpruned, Option.bind_some, hkept, Option.bind_some]
  split_ifs with heq
  · exact ⟨none, rfl, hsame⟩
  · exact ⟨some kept, rfl, hkeeps⟩

end Prune

/-- Two chains of statements cover the same paths. -/
def Agree (levels : List Extent) (above above' : List Predicate) : Prop :=
  ∀ x, InLevels levels x → (Covered above x ↔ Covered above' x)

lemma Keeps.agree {kept : Predicate} {above' : List Predicate} (h : Keeps above' own levels p kept)
    (hagree : Agree levels above above') : Agree (own :: levels) (p :: above) (kept :: above') := by
  intro y hy
  obtain ⟨x, xs, rfl, hx, hxs⟩ := hy.exists_cons
  have hkept := h.2 x xs hx hxs
  rw [Covered, Covered, tail_cons, hagree xs hxs]
  tauto

end Predicate

/-! ## The levels of a tile -/

open Predicate

/-- The extents of the levels down to `level`, innermost first; `none` where the tile has no such
level. -/
def Tiling.levelsTo : Tiling → List Extent → ℕ → Option (List Extent)
  | .dataFunction domain _, above, 0 => some (domain :: above)
  | .dataFunction domain codomain, above, level + 1 => codomain.levelsTo (domain :: above) level
  | _, _, _ => none

namespace Tile

variable {K R L : Type}

mutual

/-- The tile is of the shape, and each level states completion over the paths reaching its keys. -/
def Stated : Tile K R L → Tiling → List Extent → Prop
  | .leaf _, .scalar, _ => True
  | .leaf _, .aggregation, _ => True
  | .leaf _, .store _, _ => True
  | .record fields _, .record tilings, above => StatedFields fields tilings above
  | .dataFunction _ codomain domainPredicate, .dataFunction domain tiling, above =>
    domain.WellFormed ∧ domainPredicate.Applies (domain :: above) ∧
      Stated codomain tiling (domain :: above)
  | _, _, _ => False

/-- `Stated`, field by field. -/
def StatedFields : List (String × Tile K R L) → List (String × Tiling) → List Extent → Prop
  | [], [], _ => True
  | (name, field) :: fields, (name', tiling) :: tilings, above =>
    name = name' ∧ Stated field tiling above ∧ StatedFields fields tilings above
  | _, _, _ => False

end

/-- The statements of the levels down to `level`, innermost first, after those `above`. -/
def statements : Tile K R L → List Predicate → ℕ → List Predicate
  | .dataFunction _ _ domainPredicate, above, 0 => domainPredicate :: above
  | .dataFunction _ codomain domainPredicate, above, level + 1 =>
    codomain.statements (domainPredicate :: above) level
  | _, above, _ => above

section Walk

variable [ScalarOps]

/-- What the walk does to a tile, over the statements above it before (`above`) and after
(`above'`) their own pruning. -/
def Pruned (levels : List Extent) (tiling : Tiling) (above above' : List Predicate)
    (tile tile' : Tile K R L) : Prop :=
  tile'.Stated tiling levels ∧ ∀ level levels', tiling.levelsTo levels level = some levels' →
    Agree levels' (tile.statements above level) (tile'.statements above' level)

mutual

/-- **The walk** returns, and the levels cover what they did. -/
theorem dropCovered_spec {levels : List Extent} (hl : ∀ e ∈ levels, e.WellFormed)
    {above above' : List Predicate} (h : StatedOver levels above')
    (hagree : Agree levels above above') :
    ∀ (tile : Tile K R L) (tiling : Tiling), tile.Stated tiling levels →
      ∃ tile', tile.dropCovered above' = some tile' ∧ Pruned levels tiling above above' tile tile'
  | .leaf content, .scalar, hs | .leaf content, .aggregation, hs | .leaf content, .store _, hs =>
    ⟨.leaf content, rfl, hs, by simp [Tiling.levelsTo]⟩
  | .record fields rest, .record tilings, hs => by
    obtain ⟨fields', hfields, hs'⟩ := dropCoveredFields_spec hl h hagree fields tilings hs
    exact ⟨.record fields' rest, by simp [dropCovered, hfields], hs', by simp [Tiling.levelsTo]⟩
  | .dataFunction keys codomain domainPredicate, .dataFunction domain tiling, hs => by
    obtain ⟨hdomain, happlies, hcodomain⟩ := hs
    have hl' : ∀ e ∈ domain :: levels, e.WellFormed := by simpa using ⟨hdomain, hl⟩
    obtain ⟨o, ho, hkeeps⟩ := withoutCovered_spec hl' h (happlies.over hl')
    obtain ⟨codomain', hcod, hs', hcovers⟩ := dropCovered_spec hl' (.cons hkeeps.1 h)
      (hkeeps.agree hagree) codomain tiling hcodomain
    refine ⟨.dataFunction keys codomain' (o.getD domainPredicate), by simp [dropCovered, ho, hcod],
      ⟨hdomain, (over_iff hl').mp hkeeps.1, hs'⟩, fun level levels' hlevel => ?_⟩
    cases level with
    | zero =>
      cases hlevel
      exact hkeeps.agree hagree
    | succ level => exact hcovers level levels' hlevel

/-- The walk of a record's fields. -/
theorem dropCoveredFields_spec {levels : List Extent} (hl : ∀ e ∈ levels, e.WellFormed)
    {above above' : List Predicate} (h : StatedOver levels above')
    (hagree : Agree levels above above') :
    ∀ (fields : List (String × Tile K R L)) (tilings : List (String × Tiling)),
      StatedFields fields tilings levels →
      ∃ fields', dropCoveredFields fields above' = some fields' ∧
        StatedFields fields' tilings levels
  | [], [], _ => ⟨[], rfl, trivial⟩
  | (name, field) :: fields, (name', tiling) :: tilings, hs => by
    obtain ⟨hname, hfield, hrest⟩ := hs
    obtain ⟨field', hfield', hs', _⟩ := dropCovered_spec hl h hagree field tiling hfield
    obtain ⟨fields', hfields', hrest'⟩ := dropCoveredFields_spec hl h hagree fields tilings hrest
    exact ⟨(name, field') :: fields', by simp [dropCoveredFields, hfield', hfields'],
      hname, hs', hrest'⟩

end

/-- What the loop holds, after the levels `levels` with the statements `above`. -/
def Complete (levels : List Extent) (above : List Predicate) : Option Predicate → Prop
  | none => levels = [] ∧ above = []
  | some complete => Over levels complete ∧
      ∀ x, InLevels levels x → (Mem complete x ↔ Covered above x)

lemma Complete.step {domain : Extent} (hl : ∀ e ∈ domain :: levels, e.WellFormed)
    {complete : Option Predicate} (h : Complete levels above complete)
    (hp : Over (domain :: levels) p) :
    Returns (domain :: levels) (fun _ => True) (completeThrough complete p)
      (Covered (p :: above)) := by
  cases complete with
  | none =>
    obtain ⟨rfl, rfl⟩ := h
    exact ⟨p, rfl, hp, trivial, fun x _ => by simp [Covered]⟩
  | some complete =>
    obtain ⟨hover, hmem⟩ := h
    have hpos : 0 < levels.length := length_pos_iff.mpr hover.levels_ne_nil
    have hn : 1 < (domain :: levels).length := by simpa using hpos
    obtain ⟨hdover, hdmem⟩ := descend_spec hn (by simpa using hover)
    refine ((atoms_of_levels (by simp) hl).union_spec hdover hp).congr fun x hx => ?_
    obtain ⟨k, ks, rfl, _, hks⟩ := hx.exists_cons
    rw [hdmem _ hx, Covered, or_comm]
    simp [hmem ks hks]

/-- **`completion_at` answers what the statements down to the level cover**, and panics where the
tile has no such level. -/
lemma completionFrom_spec {levels : List Extent} (hl : ∀ e ∈ levels, e.WellFormed)
    {above : List Predicate} {complete : Option Predicate} (h : Complete levels above complete)
    {tile : Tile K R L} {tiling : Tiling} (hs : tile.Stated tiling levels) (level : ℕ) :
    match tiling.levelsTo levels level with
    | none => completionFrom tile complete level = none
    | some levels' => Returns levels' (fun _ => True) (completionFrom tile complete level)
        (Covered (tile.statements above level)) := by
  match tile, tiling, hs with
  | .leaf _, .scalar, _ | .leaf _, .aggregation, _ | .leaf _, .store _, _
  | .record _ _, .record _, _ => cases level <;> rfl
  | .dataFunction _ codomain p, .dataFunction domain tiling, ⟨hdomain, happlies, hcodomain⟩ =>
    have hl' : ∀ e ∈ domain :: levels, e.WellFormed := by simpa using ⟨hdomain, hl⟩
    obtain ⟨complete', hc, hover, _, hmem⟩ := h.step hl' (happlies.over hl')
    cases level with
    | zero => exact ⟨complete', by simpa [completionFrom] using hc, hover, trivial, hmem⟩
    | succ level =>
      have hcomplete : Complete _ (p :: above) (some complete') := ⟨hover, hmem⟩
      rw [Tiling.levelsTo, statements, completionFrom, hc]
      exact completionFrom_spec hl' hcomplete hcodomain level

end Walk

end Tile

namespace Predicate

/-! ## On values -/

/-- A statement of some level above admits the path as far as that level. -/
def CoveredBy (above : List Predicate) (path : List Value) : Prop :=
  ∃ (i : ℕ) (whole : Predicate), above[i]? = some whole ∧ whole.Admits (path.drop i)

lemma statedOver_of_applies (hl : ∀ e ∈ levels, e.WellFormed) (hlen : above.length = levels.length)
    (h : ∀ (i : ℕ) whole, above[i]? = some whole → whole.Applies (levels.drop i)) :
    StatedOver levels above := by
  induction above generalizing levels with
  | nil =>
    obtain rfl := length_eq_zero_iff.mp hlen.symm
    exact .nil
  | cons whole above ih =>
    obtain ⟨own, levels, rfl⟩ := exists_cons_of_length_eq_add_one hlen.symm
    have hlo : ∀ e ∈ levels, e.WellFormed := fun e he => hl e (by simp [he])
    exact .cons ((h 0 whole rfl).over hl) (ih hlo (by simpa using hlen) fun i whole hi => by
      simpa using h (i + 1) whole (by simpa using hi))

lemma coveredBy_iff (hl : ∀ e ∈ levels, e.WellFormed)
    (h : ∀ (i : ℕ) whole, above[i]? = some whole → whole.Applies (levels.drop i))
    {path : List Value} (hpath : ValuesOf levels path) :
    CoveredBy above path ↔ Covered above (path.map Value.point) := by
  rw [covered_iff]
  refine exists_congr fun i => exists_congr fun whole => and_congr_right fun hi => ?_
  rw [← map_drop]
  exact (h i whole hi).admits_iff (fun e he => hl e (mem_of_mem_drop he)) (forall₂_drop i hpath)

lemma dropCoveredCompletion_spec {K R L : Type} [ScalarOps]
    {tile : Tile K R L} {tiling : Tiling} (hs : tile.Stated tiling []) :
    ∃ tile', tile.dropCoveredCompletion = some tile' ∧ Tile.Pruned [] tiling [] [] tile tile' := by
  rw [Tile.dropCoveredCompletion]
  split_ifs
  · exact Tile.dropCovered_spec (by simp) .nil (fun _ _ => Iff.rfl) tile tiling hs
  · exact ⟨tile, rfl, hs, fun _ _ _ _ _ => Iff.rfl⟩

/-- **Pruning covered completion loses nothing.**  A pruned predicate admits only paths the
predicate admits, and together with the statements above it exactly the paths it admits with them.
Dropping covered completion from a tile returns a tile of the same shape, whose `completion_at`
answers as the first one's does on every path of values of every level it has. -/
theorem completion_kept [ScalarOps] {K R L : Type} :
    (∀ (own : Extent) (levels : List Extent) (above : List Predicate) (p : Predicate),
      (∀ e ∈ own :: levels, e.WellFormed) → above.length = levels.length →
      (∀ (i : ℕ) whole, above[i]? = some whole → whole.Applies (levels.drop i)) →
      p.Applies (own :: levels) →
      ∃ o, p.withoutCovered above = some o ∧ (o.getD p).Applies (own :: levels) ∧
        ∀ path, ValuesOf (own :: levels) path → ((o.getD p).Admits path → p.Admits path) ∧
          ((o.getD p).Admits path ∨ CoveredBy above path.tail ↔
            p.Admits path ∨ CoveredBy above path.tail)) ∧
    ∀ (tile : Tile K R L) (tiling : Tiling), tile.Stated tiling [] →
      ∃ tile', tile.dropCoveredCompletion = some tile' ∧ tile'.Stated tiling [] ∧
        ∀ level, match tiling.levelsTo [] level with
          | none => tile.completionAt level = none ∧ tile'.completionAt level = none
          | some levels => ∃ complete complete', tile.completionAt level = some complete ∧
              tile'.completionAt level = some complete' ∧
              ∀ path, ValuesOf levels path →
                complete'.containsPath path = complete.containsPath path ∧
                  (complete.containsPath path).isSome := by
  refine ⟨fun own levels above p hl hlen habove hp => ?_, fun tile tiling hs => ?_⟩
  · have hlo : ∀ e ∈ levels, e.WellFormed := fun e he => hl e (by simp [he])
    obtain ⟨o, ho, hover, hmem⟩ :=
      withoutCovered_spec hl (statedOver_of_applies hlo hlen habove) (hp.over hl)
    have happlies : (o.getD p).Applies (own :: levels) := (over_iff hl).mp hover
    refine ⟨o, ho, happlies, fun path hpath => ?_⟩
    rw [happlies.admits_iff hl hpath, hp.admits_iff hl hpath]
    cases hpath with
    | cons hv hvs =>
      have hkept := hmem _ _ hv.point (ValuesOf.inLevels hvs)
      rw [tail_cons, coveredBy_iff hlo habove hvs, map_cons]
      tauto
  · obtain ⟨tile', htile', hs', hagree⟩ := dropCoveredCompletion_spec hs
    refine ⟨tile', htile', hs', fun level => ?_⟩
    have hnone : Tile.Complete [] [] none := ⟨rfl, rfl⟩
    have hbefore := Tile.completionFrom_spec (by simp) hnone hs level
    have hafter := Tile.completionFrom_spec (by simp) hnone hs' level
    cases hlevel : tiling.levelsTo [] level with
    | none =>
      simp only [hlevel] at hbefore hafter ⊢
      exact ⟨hbefore, hafter⟩
    | some levels =>
      simp only [hlevel] at hbefore hafter ⊢
      obtain ⟨complete, hc, hover, _, hmem⟩ := hbefore
      obtain ⟨complete', hc', hover', _, hmem'⟩ := hafter
      refine ⟨complete, complete', hc, hc', fun path hpath => ?_⟩
      have hsame := hagree level levels hlevel _ hpath.inLevels
      rw [← hmem _ hpath.inLevels, ← hmem' _ hpath.inLevels] at hsame
      obtain ⟨b, hb, hiff⟩ := containsPath_decides hover hpath
      obtain ⟨b', hb', hiff'⟩ := containsPath_decides hover' hpath
      have hbb : b' = b := Bool.eq_iff_iff.mpr (hiff'.trans (hsame.symm.trans hiff.symm))
      exact ⟨by rw [hb, hb', hbb], by simp [hb]⟩

/-- Two levels of Booleans: the outer calls `true` complete, and the inner says so again of `false`
under it. -/
def restating : Tile Unit Unit Unit :=
  .dataFunction () (.dataFunction () (.leaf ()) (.ofQualified (onlyBool true) (onlyBool false)))
    (onlyBool true)

def boolLevels : Tiling := .dataFunction (.base .bool) (.dataFunction (.base .bool) .scalar)

lemma restating_stated : restating.Stated boolLevels [] := by
  refine ⟨.base, ⟨onlyBool_wellFormed true, ?_⟩, .base,
    ⟨.ofQualified (onlyBool_wellFormed true) (onlyBool_wellFormed false), ?_⟩, trivial⟩
  all_goals simp [isApplicableOver, onlyBool, Extent.resolve, Extent.scalarType]

theorem completion_kept_restating :
    restating.Stated boolLevels [] ∧ ∃ tile', restating.dropCoveredCompletion = some tile' ∧
      ∃ complete complete', restating.completionAt 1 = some complete ∧
        tile'.completionAt 1 = some complete' ∧
        ∀ path, ValuesOf [.base .bool, .base .bool] path →
          complete'.containsPath path = complete.containsPath path := by
  obtain ⟨tile', htile', _, hlevels⟩ := completion_kept.2 restating boolLevels restating_stated
  obtain ⟨complete, complete', hc, hc', hsame⟩ := hlevels 1
  exact ⟨restating_stated, tile', htile', complete, complete', hc, hc',
    fun path hpath => (hsame path hpath).1⟩

end Predicate

end Cambra
