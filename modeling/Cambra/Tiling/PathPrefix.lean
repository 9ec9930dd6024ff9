import Cambra.Tiling.GuardExact
import Cambra.Tiling.Prefix

/-!
# Prefixes of a path's order

The staircase of a record's prefix, taken across levels.  `domain_prefix_over` is the guard of the
paths in order at or before a path, one arm for each level: the keys below the path's own there,
under the keys of the path above.  `DriverWindow::path_prefix` states the same at the position level
of a drive, each level's arm read as many levels further in, and `emitted_prefix` is the prefix
through the last position pushed.

Paths and levels are given outermost first here, as the two functions take them; a predicate reads
them innermost first.  In order is lexicographically (`List.Lex`), by the values' own order.
-/

namespace Cambra

open Option hiding or_assoc
open List hiding Mem getElem?_eq_some_iff
open Predicate (Mem Over ValuesOf SpellsPath Encloses exactly upTo atOrBelow atOrBelowIn below_
  belowIn atoms_of_levels)

/-! ## Paths in order -/

/-- `q` comes before `path`, or is `path` where the bound is inclusive. -/
def PathWithin (inclusive : Bool) (q path : List Value) : Prop :=
  List.Lex (fun w v => Value.partialCmp w v = some .lt) q path ∨ inclusive = true ∧ q = path

/-- The step at a level: `q` is `path` above the level and lies within its key there. -/
def StepAt (inclusive : Bool) (q path : List Value) (level : ℕ) : Prop :=
  q.take level = path.take level ∧ ∃ w v, q[level]? = some w ∧ path[level]? = some v ∧
    Value.Within (inclusive && level + 1 == path.length) w v

variable {inclusive : Bool} {path q : List Value} {level : ℕ} {levels : List Extent} {p : Predicate}

/-- **The steps of a path's prefix**: one of them admits what is in order before the path. -/
lemma exists_stepAt_iff (hlen : q.length = path.length) (hne : path ≠ []) :
    (∃ level, StepAt inclusive q path level) ↔ PathWithin inclusive q path := by
  induction path generalizing q with
  | nil => exact absurd rfl hne
  | cons v path ih =>
    obtain ⟨w, q, rfl⟩ := exists_cons_of_length_eq_add_one hlen
    have hlen : q.length = path.length := by simpa using hlen
    have hfirst : StepAt inclusive (w :: q) (v :: path) 0 ↔
        Value.Within (inclusive && path.isEmpty) w v := by
      have hlast : (path.length == 0) = path.isEmpty := by cases path <;> simp
      simp [StepAt, hlast]
    have hlater : ∀ level, StepAt inclusive (w :: q) (v :: path) (level + 1) ↔
        w = v ∧ StepAt inclusive q path level := by
      intro level
      simp [StepAt, and_assoc]
    have hsplit : (∃ level, StepAt inclusive (w :: q) (v :: path) level) ↔
        Value.Within (inclusive && path.isEmpty) w v ∨
          w = v ∧ ∃ level, StepAt inclusive q path level := by
      rw [← Nat.or_exists_add_one, hfirst]
      simp [hlater]
    rw [hsplit, PathWithin, cons_lex_cons_iff, Value.within_iff, List.cons.injEq]
    cases path with
    | nil =>
      obtain rfl : q = [] := length_eq_zero_iff.mp hlen
      simp [StepAt]
    | cons v' path =>
      rw [ih hlen (by simp), PathWithin]
      simp only [isEmpty_cons, Bool.and_false, Bool.false_eq_true, false_and, or_false]
      rw [and_or_left, ← or_assoc, and_left_comm]

lemma StepAt.lt (h : StepAt inclusive q path level) : level < path.length := by
  obtain ⟨_, _, v, _, hv, _⟩ := h
  exact (List.getElem?_eq_some_iff.mp hv).1

/-- Answers at each of some levels: together they admit what one of the levels does. -/
lemma exists_levels {α : Type} {P M : α → Prop} {S : ℕ → Prop} {keys : List Value}
    {f : Value × ℕ → Option α}
    (h : ∀ kl ∈ keys.zipIdx, ∃ a, f kl = some a ∧ P a ∧ (M a ↔ S kl.2)) :
    ∃ arms, keys.zipIdx.mapM f = some arms ∧ arms.length = keys.length ∧ (∀ a ∈ arms, P a) ∧
      ((∃ a ∈ arms, M a) ↔ ∃ level < keys.length, S level) := by
  obtain ⟨arms, harms, hall⟩ := mapM_eq_some_of_forall h
  refine ⟨arms, harms, by simpa using hall.length_eq.symm, fun a ha => ?_, ?_⟩
  · obtain ⟨_, _, hP, _⟩ := exists_of_forall₂_mem_right hall ha
    exact hP
  rw [exists_mem_iff_of_forall₂ hall fun _ _ hR => hR.2]
  constructor
  · rintro ⟨kl, hkl, hS⟩
    exact ⟨kl.2, (List.getElem?_eq_some_iff.mp (mem_zipIdx_iff_getElem?.mp hkl)).1, hS⟩
  · rintro ⟨level, hlt, hS⟩
    exact ⟨_, mk_mem_zipIdx_iff_getElem?.mpr (getElem?_eq_getElem hlt), hS⟩

/-! ## The step at a level -/

/-- The predicate of a step: the keys within the bound, under the path above. -/
structure IsStep (levels : List Extent) (path : List Value) (inclusive : Bool) (level : ℕ)
    (p : Predicate) : Prop where
  isOver : Over ((levels.take (level + 1)).reverse.map Extent.strip) p
  mem_iff : ∀ q, List.Forall₂ Value.Spells levels q →
    (Mem p ((q.take (level + 1)).reverse.map Value.point) ↔ StepAt inclusive q path level)

variable {given : Option Extent}

section Step

variable [ScalarOps] [∀ τ : ScalarType, IntervalOps.LawfulNew τ.Val]

/-- **The step at a level**, as both prefixes build it. -/
lemma step_spec (hl : ∀ e ∈ levels, e.WellFormed)
    (hpath : List.Forall₂ Value.Spells (levels.take path.length) path) (inclusive : Bool)
    {key : Value} (hkey : path[level]? = some key)
    (hgiven : ∀ e, levels[level]? = some e → Extent.Tells given e) :
    ∃ rows bound, exactly (path.take level).reverse = some rows ∧
      upTo key (inclusive && level + 1 == path.length) given = some bound ∧
      IsStep levels path inclusive level (.qualified rows bound) := by
  have hlt : level < path.length := (List.getElem?_eq_some_iff.mp hkey).1
  -- the level's own extent, and the rows above it
  obtain ⟨e, he, hspells⟩ := forall₂_getElem? hpath.flip hkey
  rw [getElem?_take_of_lt hlt] at he
  have habove : SpellsPath (levels.take level).reverse (path.take level).reverse := by
    have htake := forall₂_take level hpath
    rw [take_take, min_eq_left hlt.le] at htake
    exact forall₂_reverse_iff.mpr htake
  have hlabove : ∀ e ∈ (levels.take level).reverse, e.WellFormed := fun e he =>
    hl e (mem_of_mem_take (mem_reverse.mp he))
  have hlevels : (levels.take (level + 1)).reverse = e :: (levels.take level).reverse := by
    rw [take_add_one, he, toList_some, reverse_append]
    rfl
  obtain ⟨rows, hrows, hencl, hrowmem⟩ := Predicate.exactly_spec hlabove habove
  obtain ⟨bound, hbound, hover, hmem⟩ := Predicate.upTo_spec (hl e (mem_of_getElem? he))
    hspells (inclusive && level + 1 == path.length) (hgiven e he)
  obtain ⟨hqover, hqmem⟩ := Predicate.qualified_spec hencl hover
  refine ⟨rows, bound, hrows, hbound, by rwa [hlevels], fun q hq => ?_⟩
  obtain ⟨w, hw, hwspells⟩ := forall₂_getElem? hq he
  have hqabove : SpellsPath (levels.take level).reverse (q.take level).reverse :=
    forall₂_reverse_iff.mpr (forall₂_take level hq)
  have htake : (q.take (level + 1)).reverse = w :: (q.take level).reverse := by
    rw [take_add_one, hw, toList_some, reverse_append]
    rfl
  rw [htake, map_cons, hqmem _ _ hqabove.strip.valuesOf.inLevels, hrowmem _ hqabove,
    hmem w hwspells, reverse_inj, StepAt, hw, hkey]
  simp

end Step

/-- A step as a predicate at the innermost of the levels. -/
lemma IsStep.descend (h : IsStep levels path inclusive level p) (hlevel : level < levels.length) :
    Over (levels.reverse.map Extent.strip) (p.descend (levels.length - (level + 1))) ∧
      ∀ q, List.Forall₂ Value.Spells levels q →
        (Mem (p.descend (levels.length - (level + 1))) (q.reverse.map Value.point) ↔
          StepAt inclusive q path level) := by
  have hover := h.isOver
  rw [reverse_take, map_drop] at hover
  obtain ⟨hdover, hdmem⟩ := Predicate.descend_spec (by simp; omega) hover
  refine ⟨hdover, fun q hq => ?_⟩
  have hin : InLevels (levels.reverse.map Extent.strip) (q.reverse.map Value.point) :=
    (SpellsPath.valuesOf (SpellsPath.strip (forall₂_reverse_iff.mpr hq))).inLevels
  rw [hdmem _ hin, ← h.mem_iff q hq, reverse_take, ← map_drop, hq.length_eq]

/-- Only the keys as far as the path goes are compared. -/
lemma stepAt_take :
    StepAt inclusive (q.take path.length) path level ↔ StepAt inclusive q path level := by
  rcases hkey : path[level]? with _ | v
  · simp [StepAt, hkey]
  · have hlt : level < path.length := (List.getElem?_eq_some_iff.mp hkey).1
    rw [StepAt, StepAt, take_take, min_eq_left hlt.le, getElem?_take_of_lt hlt]

/-! ## Guards -/

/-- A tiling of levels and nothing else, outermost first. -/
def Tiling.ofLevels : Extent → List Extent → Tiling
  | own, [] => .store own
  | own, inner :: rest => .dataFunction own (Tiling.ofLevels inner rest)

namespace TileGuard

variable {own : Extent} {rest : List Extent}

lemma isLevel_ofLevels : IsLevel (Tiling.ofLevels own rest) own := by
  cases rest with
  | nil => exact .store
  | cons => exact .dataFunction

lemma wellFormed_ofLevels (hl : ∀ e ∈ own :: rest, e.WellFormed) :
    (Tiling.ofLevels own rest).WellFormed := by
  induction rest generalizing own with
  | nil => exact .store (hl own (by simp))
  | cons inner rest ih =>
    exact .dataFunction (hl own (by simp)) (ih fun e he => hl e (by simp [he]))

variable {above : List Extent}

lemma isOver_wrapDomain (hlevel : level < (own :: rest).length)
    (hp : Over (((own :: rest).take (level + 1)).reverse ++ above) p) :
    IsOver above (Tiling.ofLevels own rest) (wrapGuard level (.domain p)) := by
  induction level generalizing own rest above with
  | zero => exact .domain isLevel_ofLevels (by simpa using hp)
  | succ level ih =>
    obtain ⟨inner, rest, rfl⟩ : ∃ inner rest', rest = inner :: rest' :=
      exists_cons_of_ne_nil (by rintro rfl; simp at hlevel)
    refine .codomain (ih (by simpa using hlevel) ?_)
    simpa using hp

lemma covers_wrapDomain {κ : Type} {mem : Predicate → List κ → Prop} {q path : List κ}
    (hlevel : level < q.length) :
    Covers mem (wrapGuard level (.domain p)) path (q.map .key) ↔
      mem p ((q.take (level + 1)).reverse ++ path) := by
  induction level generalizing q path with
  | zero =>
    obtain ⟨k, q, rfl⟩ := exists_cons_of_length_pos hlevel
    rw [wrapGuard, map_cons, covers_domain]
    simp
  | succ level ih =>
    obtain ⟨k, q, rfl⟩ := exists_cons_of_length_pos (Nat.zero_lt_of_lt hlevel)
    rw [wrapGuard, map_cons, covers_codomain, ih (by simpa using hlevel)]
    simp

lemma cellOf_ofLevels {q : List KeyPoint} (hq : InLevels (own :: rest) q) :
    CellOf InExtent (Tiling.ofLevels own rest) (q.map .key) := by
  induction rest generalizing own q with
  | nil =>
    obtain ⟨k, rfl, hk⟩ := hq.exists_singleton
    exact .store hk
  | cons inner rest ih =>
    obtain ⟨k, ks, rfl, hk, hks⟩ := hq.exists_cons
    exact .dataFunction hk (ih hks)

/-- **Over levels alone, a path is covered where its one cell is.** -/
lemma coversAt_decides {t : Tiling} {g : TileGuard} (hg : IsOver above t g)
    (ht : t = Tiling.ofLevels own rest) (hpath : ValuesOf above path)
    (hq : ValuesOf (own :: rest) q) :
    Decides (coversAt g path q)
      (Covers Mem g (path.map Value.point) ((q.map Value.point).map .key)) := by
  induction hg generalizing own rest path q with
  | scalar | aggregation | record => cases rest <;> cases ht
  | domain hlevel hp =>
    subst ht
    obtain rfl := hlevel.eq isLevel_ofLevels
    cases hq with
    | cons hk _ =>
      rw [coversAt.eq_def]
      simp only [map_cons, covers_domain]
      exact Predicate.containsPath_decides hp (.cons hk hpath)
  | codomain _ ih =>
    cases rest with
    | nil => cases ht
    | cons inner rest =>
      obtain ⟨rfl, rfl⟩ := Tiling.dataFunction.inj ht
      cases hq with
      | cons hk hq =>
        cases hq with
        | cons hnext hq =>
          rw [coversAt.eq_def]
          simp only [map_cons, covers_codomain]
          exact ih rfl (.cons hk hpath) (.cons hnext hq)
  | ofOr _ _ ih =>
    rw [coversAt.eq_def]
    exact (Decides.anyM fun arm harm => ih arm harm ht hpath hq).congr covers_ofOr.symm

section Guards

variable [ScalarOps]

/-- The bound at a level: every level but the last is bounded below its key. -/
def boundAt (path : List Value) (levels : List Extent) (kl : Value × ℕ) : Option Predicate :=
  match kl.2 + 1 == path.length, levels[kl.2]? with
  | true, some extent => atOrBelowIn kl.1 extent
  | false, some extent => belowIn kl.1 extent
  | true, none => atOrBelow kl.1
  | false, none => below_ kl.1

lemma boundAt_eq (path : List Value) (levels : List Extent) (kl : Value × ℕ) :
    boundAt path levels kl = upTo kl.1 (kl.2 + 1 == path.length) levels[kl.2]? := by
  rw [boundAt]
  rcases kl.2 + 1 == path.length with _ | _ <;> rcases levels[kl.2]? with _ | _ <;> rfl

/-- The prefix of a path in nested-key order, over the domains of its levels: whole keys before each
component, and the last component's own.  A level with no domain given takes the bound its key alone
spells. -/
def domainPrefixOver (path : List Value) (levels : List Extent) : Option TileGuard :=
  if path.isEmpty then none
  else do
    let arms ← path.zipIdx.mapM fun kl => do
      let bound ← boundAt path levels kl
      return wrapGuard kl.2 (.domain (.qualified (← exactly (path.take kl.2).reverse) bound))
    flattenOr arms

variable [∀ τ : ScalarType, IntervalOps.LawfulNew τ.Val]

omit [∀ τ : ScalarType, IntervalOps.LawfulNew τ.Val] in
lemma domainPrefixOver_eq (hne : path ≠ []) (levels : List Extent) : domainPrefixOver path levels =
      (path.zipIdx.mapM fun kl => (boundAt path levels kl).bind fun bound =>
        (exactly (path.take kl.2).reverse).bind fun rows =>
          some (wrapGuard kl.2 (.domain (.qualified rows bound)))).bind flattenOr := by
  rw [domainPrefixOver, if_neg (by simpa using hne)]
  rfl

/-- **`domain_prefix_over` covers the paths in order at or before its own.** -/
theorem domainPrefixOver_decides {given : List Extent} (hl : ∀ e ∈ levels, e.WellFormed)
    (hne : path ≠ []) (hpath : List.Forall₂ Value.Spells (levels.take path.length) path)
    (hgiven : ∀ level e, level < path.length → levels[level]? = some e →
      Extent.Tells given[level]? e) (hq : List.Forall₂ Value.Spells levels q) :
    Decides ((domainPrefixOver path given).bind fun g => coversPath g q)
      (PathWithin true (q.take path.length) path) := by
  have hlen : path.length ≤ levels.length := by
    have := hpath.length_eq
    rw [length_take] at this
    omega
  have hqlen : q.length = levels.length := hq.length_eq.symm
  obtain ⟨own, rest, hstrip⟩ : ∃ own rest, levels.map Extent.strip = own :: rest := by
    refine exists_cons_of_ne_nil fun h => hne ?_
    simp_all
  have hwf : ∀ e ∈ own :: rest, e.WellFormed :=
    hstrip ▸ forall_mem_map.mpr fun e he => (hl e he).strip
  have hvalues : ValuesOf (own :: rest) q := hstrip ▸ SpellsPath.valuesOf (SpellsPath.strip hq)
  -- each arm is the step at its level
  have harm : ∀ kl ∈ path.zipIdx, ∃ arm, ((boundAt path given kl).bind fun bound =>
        (exactly (path.take kl.2).reverse).bind fun rows =>
          some (wrapGuard kl.2 (.domain (.qualified rows bound)))) = some arm ∧
      IsOver [] (Tiling.ofLevels own rest) arm ∧
      (Covers Mem arm [] ((q.map Value.point).map .key) ↔ StepAt true q path kl.2) := by
    intro kl hkl
    have hkey := mem_zipIdx_iff_getElem?.mp hkl
    have hlt : kl.2 < path.length := (List.getElem?_eq_some_iff.mp hkey).1
    obtain ⟨rows, bound, hrows, hbound, hover, hmem⟩ :=
      step_spec hl hpath true hkey fun e he => hgiven kl.2 e hlt he
    rw [Bool.true_and, ← boundAt_eq] at hbound
    refine ⟨_, by rw [hbound, bind_some, hrows, bind_some], ?_, ?_⟩
    · refine isOver_wrapDomain (by simp only [← hstrip, length_map]; omega) ?_
      rwa [append_nil, ← hstrip, ← map_take, ← map_reverse]
    · rw [covers_wrapDomain (by simp only [length_map]; omega), append_nil,
        ← map_take, ← map_reverse, hmem q hq]
  obtain ⟨arms, harms, harmslen, hover, hcovers⟩ := exists_levels harm
  have harmsne : arms ≠ [] := fun h => hne (length_eq_zero_iff.mp (by simp [← harmslen, h]))
  obtain ⟨r, hr, hrover, hrcov⟩ :=
    (normal_of_wellFormed (wellFormed_ofLevels hwf)).here.flattenOr (by simp) harmsne hover
  rw [domainPrefixOver_eq hne, harms, bind_some, hr, bind_some]
  have htake : (q.take path.length).length = path.length := by
    rw [length_take]
    omega
  refine (coversAt_decides hrover rfl .nil hvalues).congr ?_
  calc Covers Mem r [] ((q.map Value.point).map .key)
      ↔ ∃ level < path.length, StepAt true q path level :=
        (hrcov [] _ .nil (cellOf_ofLevels hvalues.inLevels)).trans hcovers
    _ ↔ ∃ level, StepAt true q path level :=
        exists_congr fun level => and_iff_right_of_imp StepAt.lt
    _ ↔ ∃ level, StepAt true (q.take path.length) path level :=
        exists_congr fun level => stepAt_take.symm
    _ ↔ PathWithin true (q.take path.length) path := exists_stepAt_iff htake hne

end Guards

end TileGuard

/-! ## Drives -/

/-- The window of a drive, as far as its prefixes read it. -/
structure DriverWindow where
  /-- The positions' domain. -/
  domain : Extent
  /-- The collection levels above the positions, outermost first, of a nested drive. -/
  nested : Option (List Extent)
  /-- The last row and position pushed. -/
  highestPushed : Option (Option (List Value) × Value)

namespace DriverWindow

section Window

variable [ScalarOps]

/-- The union of the predicates, and nothing of none. -/
def reduceUnion : List Predicate → Option Predicate
  | [] => some .ff
  | first :: rest => rest.foldlM Predicate.union first

lemma reduceUnion_spec (hne : levels ≠ []) (hl : ∀ e ∈ levels, e.WellFormed) {arms : List Predicate}
    (harms : arms ≠ []) (h : ∀ p ∈ arms, Over levels p) :
    Predicate.Returns levels (fun _ => True) (reduceUnion arms) (fun x => ∃ p ∈ arms, Mem p x) := by
  obtain ⟨first, rest, rfl⟩ := exists_cons_of_ne_nil harms
  have hrest : ∀ p ∈ rest, Predicate.Returns levels (fun _ => True) (some p) (Mem p) := fun p hp =>
    ⟨p, rfl, h p (by simp [hp]), trivial, fun _ _ => Iff.rfl⟩
  refine (Predicate.foldlM_union_spec (atoms_of_levels hne hl) hrest (h first (by simp))).congr
    fun x _ => ?_
  simp

/-- Every path ordered before the position under the enclosing positions `rows`, and that path
itself when `inclusive`, stated at the position level. -/
def pathPrefix (self : DriverWindow) (rows : List Value) (position : Value) (inclusive : Bool) :
    Option Predicate := do
  let own ← (if inclusive then atOrBelowIn position self.domain
    else belowIn position self.domain : Option Predicate)
  let earlier ← rows.zipIdx.mapM fun rl => do
    let rowDomain ← (← self.nested)[rl.2]?
    let earlier := Predicate.qualified (← exactly (rows.take rl.2).reverse)
      (← belowIn rl.1 rowDomain)
    return earlier.descend (rows.length - rl.2)
  let last := Predicate.qualified (← exactly rows.reverse) own
  reduceUnion (earlier ++ [last])

/-- Every position the drive has emitted, as the prefix through the last one pushed. -/
def emittedPrefix (self : DriverWindow) : Option Predicate :=
  match self.highestPushed with
  | none => some .ff
  | some (row, position) => self.pathPrefix (row.getD []) position true

variable [∀ τ : ScalarType, IntervalOps.LawfulNew τ.Val] {rowLevels : List Extent}
  {window : DriverWindow}
  (hrows : ∀ (level : ℕ) (e : Extent), rowLevels[level]? = some e →
    window.nested.bind (fun nested => nested[level]?) = some e)
  (hl : ∀ e ∈ rowLevels ++ [window.domain], e.WellFormed)
  (hnamed : ∀ e ∈ rowLevels ++ [window.domain], e.TagsNamed)
  (hq : List.Forall₂ Value.Spells (rowLevels ++ [window.domain]) q)

include hrows hl hnamed hq

/-- **`path_prefix` contains the paths in order before its own.** -/
theorem pathPrefix_decides {rows : List Value} {position : Value}
    (hpath : List.Forall₂ Value.Spells (rowLevels ++ [window.domain]) (rows ++ [position]))
    (inclusive : Bool) :
    Decides ((window.pathPrefix rows position inclusive).bind fun p => p.containsPath q.reverse)
      (PathWithin inclusive q (rows ++ [position])) := by
  set levels := rowLevels ++ [window.domain] with hlevels
  have hlen : rowLevels.length = rows.length := by
    have := hpath.length_eq
    simpa [hlevels] using this
  have hfull : List.Forall₂ Value.Spells (levels.take (rows ++ [position]).length)
      (rows ++ [position]) := by
    rw [← hpath.length_eq, take_length]
    exact hpath
  have htotal : levels.length = rows.length + 1 := by simp [hlevels, hlen]
  -- the step at each level, read at the innermost
  have hstep : ∀ (level : ℕ) key e, (rows ++ [position])[level]? = some key →
      levels[level]? = some e → ∃ above bound,
        exactly ((rows ++ [position]).take level).reverse = some above ∧
        upTo key (inclusive && level == rows.length) (some e) = some bound ∧
        Over (levels.reverse.map Extent.strip)
          ((Predicate.qualified above bound).descend (rows.length - level)) ∧
        (Mem ((Predicate.qualified above bound).descend (rows.length - level))
          (q.reverse.map Value.point) ↔ StepAt inclusive q (rows ++ [position]) level) := by
    intro level key e hkey he
    have hgiven : ∀ e', levels[level]? = some e' → Extent.Tells (some e) e' := fun e' h => by
      obtain rfl := mem_unique he h
      exact .inr ⟨rfl, hnamed e (mem_of_getElem? he)⟩
    obtain ⟨above, bound, habove, hbound, hstep⟩ := step_spec hl hfull inclusive hkey hgiven
    obtain ⟨hover, hmem⟩ := hstep.descend (List.getElem?_eq_some_iff.mp he).1
    rw [htotal, Nat.add_sub_add_right] at hover hmem
    exact ⟨above, bound, habove, by simpa using hbound, hover, hmem q hq⟩
  have hrow : ∀ rl ∈ rows.zipIdx, ∃ p, (window.nested.bind fun nested =>
      nested[rl.2]?.bind fun rowDomain => (exactly (rows.take rl.2).reverse).bind fun above =>
        (belowIn rl.1 rowDomain).bind fun bound =>
          some ((Predicate.qualified above bound).descend (rows.length - rl.2))) = some p ∧
      Over (levels.reverse.map Extent.strip) p ∧
      (Mem p (q.reverse.map Value.point) ↔ StepAt inclusive q (rows ++ [position]) rl.2) := by
    intro rl hrl
    have hkey := mem_zipIdx_iff_getElem?.mp hrl
    have hlt : rl.2 < rows.length := (List.getElem?_eq_some_iff.mp hkey).1
    have he := getElem?_eq_getElem (hlen ▸ hlt)
    obtain ⟨nested, hnested, hrowDomain⟩ := bind_eq_some_iff.mp (hrows _ _ he)
    obtain ⟨above, bound, habove, hbound, hspec⟩ := hstep rl.2 rl.1 _
      (by rw [getElem?_append_left hlt, hkey])
      (by rw [getElem?_append_left (hlen ▸ hlt), he])
    rw [take_append_of_le_length hlt.le] at habove
    rw [beq_false_of_ne hlt.ne, Bool.and_false] at hbound
    exact ⟨_, by simp [hnested, hrowDomain, habove, belowIn, hbound], hspec⟩
  obtain ⟨earlier, hearlier, _, hrowsOver, hrowsMem⟩ := exists_levels hrow
  obtain ⟨above, own, habove, hown, hlastOver, hlastMem⟩ :=
    hstep rows.length position window.domain (by simp) (by simp [hlevels, ← hlen])
  rw [take_left] at habove
  rw [beq_self_eq_true, Bool.and_true] at hown
  rw [Nat.sub_self, Predicate.descend] at hlastOver hlastMem
  have hwhole : window.pathPrefix rows position inclusive =
      reduceUnion (earlier ++ [Predicate.qualified above own]) := by
    have hbound : (if inclusive then atOrBelowIn position window.domain
        else belowIn position window.domain) = some own := by cases inclusive <;> exact hown
    rw [pathPrefix, hbound]
    simp [hearlier, habove]
  have hover : ∀ p ∈ earlier ++ [Predicate.qualified above own],
      Over (levels.reverse.map Extent.strip) p :=
    forall_mem_append.mpr ⟨hrowsOver, forall_mem_singleton.mpr hlastOver⟩
  have hmem : (∃ p ∈ earlier ++ [Predicate.qualified above own],
      Mem p (q.reverse.map Value.point)) ↔
      ∃ level, StepAt inclusive q (rows ++ [position]) level := by
    calc (∃ p ∈ earlier ++ [Predicate.qualified above own], Mem p (q.reverse.map Value.point))
        ↔ (∃ level < rows.length, StepAt inclusive q (rows ++ [position]) level) ∨
            StepAt inclusive q (rows ++ [position]) rows.length := by
          simp only [mem_append, mem_singleton, or_and_right, exists_or, exists_eq_left,
            hrowsMem, hlastMem]
      _ ↔ ∃ level < rows.length + 1, StepAt inclusive q (rows ++ [position]) level :=
          Nat.exists_lt_succ_right.symm
      _ ↔ ∃ level, StepAt inclusive q (rows ++ [position]) level :=
          exists_congr fun level => and_iff_right_of_imp fun h => by simpa using h.lt
  have hlevelsWf : ∀ e ∈ levels.reverse.map Extent.strip, e.WellFormed :=
    forall_mem_map.mpr fun e he => (hl e (mem_reverse.mp he)).strip
  have hvalues : ValuesOf (levels.reverse.map Extent.strip) q.reverse :=
    SpellsPath.valuesOf (SpellsPath.strip (forall₂_reverse_iff.mpr hq))
  obtain ⟨r, hr, hrover, _, hrmem⟩ := reduceUnion_spec (by simp [hlevels]) hlevelsWf (by simp) hover
  rw [hwhole, hr, bind_some]
  refine (Predicate.containsPath_decides hrover hvalues).congr ?_
  refine (hrmem _ hvalues.inLevels).trans (hmem.trans (exists_stepAt_iff ?_ (by simp)))
  rw [← hq.length_eq, hpath.length_eq]

/-- **`emitted_prefix` contains the paths at or before the last one pushed**, and none before any
is. -/
theorem emittedPrefix_decides
    (hpushed : ∀ row position, window.highestPushed = some (row, position) →
      List.Forall₂ Value.Spells (rowLevels ++ [window.domain]) (row.getD [] ++ [position])) :
    Decides (window.emittedPrefix.bind fun p => p.containsPath q.reverse)
      (∃ row position, window.highestPushed = some (row, position) ∧
        PathWithin true q (row.getD [] ++ [position])) := by
  rcases hhigh : window.highestPushed with _ | ⟨row, position⟩
  · rw [emittedPrefix, hhigh]
    refine .of_false (by simp [Predicate.containsPath]) (by simp)
  · rw [emittedPrefix, hhigh]
    refine (pathPrefix_decides hrows hl hnamed hq (hpushed row position hhigh) true).congr ?_
    simp

end Window

end DriverWindow

/-! ## Prefixes are exact -/

section Exact

variable [ScalarOps] [∀ τ : ScalarType, IntervalOps.LawfulNew τ.Val]

lemma upTo_contains_decides {e : Extent} {v w : Value} (he : e.WellFormed) (hv : v.Spells e)
    (hw : w.Spells e) (inclusive : Bool) (hg : Extent.Tells given e) :
    Decides ((upTo v inclusive given).bind fun p => p.contains w) (Value.Within inclusive w v) := by
  obtain ⟨r, hr, hover, hmem⟩ := Predicate.upTo_spec he hv inclusive hg
  rw [hr, bind_some]
  exact (Predicate.contains_decides_open hover hw.strip.ofExtent.toOpen).congr (hmem w hw)

/-- **Order prefixes are exact.**  A key's prefix contains the keys of its extent that are in order
at or below it, or strictly below; without the extent, where the extent has no union.  The guard of
a path's prefix covers the paths in order at or before it, and so do the two prefixes of a drive,
where every level's unions are named. -/
theorem prefixes_exact : (∀ (e : Extent) (v w : Value), e.WellFormed → v.Spells e → w.Spells e →
      (e.TagsNamed →
        Decides ((atOrBelowIn v e).bind fun p => p.contains w) (Value.Within true w v) ∧
        Decides ((belowIn v e).bind fun p => p.contains w) (Value.Within false w v)) ∧
      (e.UnionFree → Decides ((atOrBelow v).bind fun p => p.contains w) (Value.Within true w v) ∧
        Decides ((below_ v).bind fun p => p.contains w) (Value.Within false w v))) ∧
    (∀ (levels : List Extent) (path q : List Value), (∀ e ∈ levels, e.WellFormed) →
      (∀ e ∈ levels, e.TagsNamed) → path ≠ [] →
      List.Forall₂ Value.Spells (levels.take path.length) path →
      List.Forall₂ Value.Spells levels q →
      Decides ((TileGuard.domainPrefixOver path levels).bind fun g => g.coversPath q)
        (PathWithin true (q.take path.length) path)) ∧
    ∀ (window : DriverWindow) (rowLevels : List Extent) (q : List Value),
      (∀ (level : ℕ) (e : Extent), rowLevels[level]? = some e →
        window.nested.bind (fun nested => nested[level]?) = some e) →
      (∀ e ∈ rowLevels ++ [window.domain], e.WellFormed) →
      (∀ e ∈ rowLevels ++ [window.domain], e.TagsNamed) →
      List.Forall₂ Value.Spells (rowLevels ++ [window.domain]) q →
      (∀ (rows : List Value) (position : Value) (inclusive : Bool),
        List.Forall₂ Value.Spells (rowLevels ++ [window.domain]) (rows ++ [position]) →
        Decides ((window.pathPrefix rows position inclusive).bind fun p => p.containsPath q.reverse)
          (PathWithin inclusive q (rows ++ [position]))) ∧
      ((∀ row position, window.highestPushed = some (row, position) →
        List.Forall₂ Value.Spells (rowLevels ++ [window.domain]) (row.getD [] ++ [position])) →
        Decides (window.emittedPrefix.bind fun p => p.containsPath q.reverse)
          (∃ row position, window.highestPushed = some (row, position) ∧
            PathWithin true q (row.getD [] ++ [position]))) := by
  refine ⟨fun e v w he hv hw => ⟨fun hnamed => ?_, fun hfree => ?_⟩, ?_, ?_⟩
  · exact ⟨upTo_contains_decides he hv hw true (.inr ⟨rfl, hnamed⟩),
      upTo_contains_decides he hv hw false (.inr ⟨rfl, hnamed⟩)⟩
  · exact ⟨upTo_contains_decides he hv hw true (.inl hfree),
      upTo_contains_decides he hv hw false (.inl hfree)⟩
  · intro levels path q hl hnamed hne hpath hq
    refine TileGuard.domainPrefixOver_decides hl hne hpath (fun level e _ he => ?_) hq
    exact .inr ⟨he, hnamed e (mem_of_getElem? he)⟩
  · intro window rowLevels q hrows hl hnamed hq
    exact ⟨fun rows position inclusive hpath =>
        DriverWindow.pathPrefix_decides hrows hl hnamed hq hpath inclusive,
      DriverWindow.emittedPrefix_decides hrows hl hnamed hq⟩

end Exact

/-- A Boolean under the first tag, or nothing under the second. -/
def flagged : Extent := .union [(.index 0, .base .bool), (.index 1, .base .unit)]

lemma flagged_wellFormed : flagged.WellFormed := by
  refine .union ?_ fun k e h => ?_
  · simp only [KeysAscend, map_cons, map_nil, pairwise_pair]
    exact Sum.Lex.inl_lt_inl_iff.mpr Nat.zero_lt_one
  · simp only [List.mem_cons, Prod.mk.injEq, List.not_mem_nil, or_false] at h
    rcases h with ⟨_, rfl⟩ | ⟨_, rfl⟩ <;> exact .base

lemma flagged_tagsNamed : flagged.TagsNamed := by
  refine .union fun k e h => .of_unionFree ?_
  have hmem := mem_of_lookup_eq_some h
  simp only [List.mem_cons, Prod.mk.injEq, List.not_mem_nil, or_false] at hmem
  rcases hmem with ⟨_, rfl⟩ | ⟨_, rfl⟩ <;> exact .base

lemma spells_second : Value.Spells flagged (.union (.index 1) .unit) := .union rfl .unit

lemma spells_bool (b : Bool) : Value.Spells (.base .bool) (.scalar .bool b) :=
  .scalar (by rfl : Extent.scalarType (.base .bool) = some .bool) b

lemma spells_first (b : Bool) : Value.Spells flagged (.union (.index 0) (.scalar .bool b)) :=
  .union rfl (spells_bool b)

/-- A drive over Booleans under the rows of `flagged` keys, which has pushed `false` in the row of
the second tag. -/
def flaggedWindow : DriverWindow where
  domain := .base .bool
  nested := some [flagged]
  highestPushed := some (some [.union (.index 1) .unit], .scalar .bool false)

/-- A union's key, and the path of it and a Boolean under it, against an earlier key and path. -/
theorem prefixes_exact_flagged : Decides ((belowIn (.union (.index 1) .unit) flagged).bind fun p =>
        p.contains (.union (.index 0) (.scalar .bool true)))
      (Value.Within false (.union (.index 0) (.scalar .bool true)) (.union (.index 1) .unit)) ∧
    Decides ((atOrBelow (.scalar .bool true)).bind fun p => p.contains (.scalar .bool false))
      (Value.Within true (.scalar .bool false) (.scalar .bool true)) ∧
    Decides ((TileGuard.domainPrefixOver [.union (.index 1) .unit, .scalar .bool false]
        [flagged, .base .bool]).bind fun g =>
        g.coversPath [.union (.index 0) (.scalar .bool true), .scalar .bool true])
      (PathWithin true ([.union (.index 0) (.scalar .bool true), .scalar .bool true].take 2)
        [.union (.index 1) .unit, .scalar .bool false]) ∧
    Decides ((flaggedWindow.pathPrefix [.union (.index 1) .unit] (.scalar .bool true)
        false).bind fun p =>
        p.containsPath [.scalar .bool true, .union (.index 0) (.scalar .bool true)])
      (PathWithin false [.union (.index 0) (.scalar .bool true), .scalar .bool true]
        [.union (.index 1) .unit, .scalar .bool true]) ∧
    Decides (flaggedWindow.emittedPrefix.bind fun p =>
        p.containsPath [.scalar .bool true, .union (.index 0) (.scalar .bool true)])
      (∃ row position, flaggedWindow.highestPushed = some (row, position) ∧
        PathWithin true [.union (.index 0) (.scalar .bool true), .scalar .bool true]
          (row.getD [] ++ [position])) := by
  have hwell : ∀ e ∈ [flagged, .base .bool], e.WellFormed := by
    simp [flagged_wellFormed, Extent.WellFormed.base]
  have hnamed : ∀ e ∈ [flagged, .base .bool], e.TagsNamed := by
    simp [flagged_tagsNamed, Extent.TagsNamed.of_unionFree, Extent.UnionFree.base]
  have hpath : ∀ b, List.Forall₂ Value.Spells [flagged, .base .bool]
      [.union (.index 1) .unit, .scalar .bool b] :=
    fun b => .cons spells_second (.cons (spells_bool b) .nil)
  have hq : List.Forall₂ Value.Spells [flagged, .base .bool]
      [.union (.index 0) (.scalar .bool true), .scalar .bool true] :=
    .cons (spells_first true) (.cons (spells_bool true) .nil)
  obtain ⟨hkey, hguard, hwindow⟩ := prefixes_exact
  obtain ⟨hbefore, hemitted⟩ := hwindow flaggedWindow [flagged] _
    (by simp [flaggedWindow]) hwell hnamed hq
  refine ⟨((hkey _ _ _ flagged_wellFormed spells_second (spells_first true)).1 flagged_tagsNamed).2,
    ((hkey _ _ _ .base (spells_bool true) (spells_bool false)).2 .base).1,
    hguard _ _ _ hwell hnamed (by simp) (hpath false) hq, hbefore _ _ false (hpath true),
    hemitted fun row position hpushed => ?_⟩
  obtain ⟨rfl, rfl⟩ := Prod.mk.inj (Option.some.inj hpushed)
  exact hpath false

/-- **A union's prefix needs the union.**  Without the extent there is no bound, and behind a
wrapper the extent is not looked for. -/
theorem union_bound_needs_tags :
    Value.Spells flagged (.union (.index 1) .unit) ∧ atOrBelow (.union (.index 1) .unit) = none ∧
    Value.Spells (.restricted flagged) (.union (.index 1) .unit) ∧
      atOrBelowIn (.union (.index 1) .unit) (.restricted flagged) = none := by
  refine ⟨spells_second, ?_, .restricted spells_second, ?_⟩
  · simp [atOrBelow, upTo]
  · simp [atOrBelowIn, upTo]

end Cambra
