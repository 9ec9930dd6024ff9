import Cambra.Store.Site
import Cambra.Tiling.Position

/-!
# The window of a transaction driver, whatever its inputs do

The driver on its own: its source may show any rows on each read, in any order over the reads, the
store may be at any frontier, and its consumers may release any rows (`DriverEvent`).  Of the facts
the driver asserts about its window in debug builds some hold in every such run: rows take the
attempt counter's values in turn, a row is never renumbered, a row is pushed only where item or
frontier are not those of the last push, and only the release of the newest row moves the item
cursor.  That the live rows are attempts at one item, and at most two, holds in exactly the runs in
which every row is pushed onto at most one live row, of the same item (`PushesAlone`,
`driverKept_iff`).

A source that delivers in order keeps to the one item (`DriverInv.window_item`), and consumers that
release a row once a newer one supersedes it keep to the two rows.  A source that delivers an item
below the one in flight does not (`late_item_joins_window`): a concatenation of live sources, whose
positions are ordered by the arm first, is such a source.
-/

namespace Cambra

open List

variable {κ ν P α : Type*} [LinearOrder P]

/-! ## Runs of a driver -/

/-- What happens to a driver. -/
inductive DriverEvent (κ ν P α : Type*) [LinearOrder P] where
  /-- A pull, which reads the source where it has news, and the store. -/
  | pull (news : Option (SourceTile P α)) (view : StoreView κ ν)
  | release (r : PositionRelease ℕ)

namespace TransactDriver

variable (d : TransactDriver P α ν)

/-- Act on a release: the newest row's is the item's finish, and the rows of the prefix it covers
are dropped. -/
def releaseRows (r : PositionRelease ℕ) : TransactDriver P α ν :=
  let d := match d.window.getLast? with
    | some row => if r.contains row.position then d.finishItem row.itemPosition else d
    | none => d
  match r.extent with
  | .nothing => d
  | .through w => d.acknowledge (some w)
  | .all => { d with window := [] }

/-- One event. -/
def step (t : TransactSite κ ν P α) (d : TransactDriver P α ν) :
    DriverEvent κ ν P α → TransactDriver P α ν
  | .pull news view => d.get t view news
  | .release r => d.releaseRows r

/-- The driver of a site after some events. -/
def run (t : TransactSite κ ν P α) (events : List (DriverEvent κ ν P α)) : TransactDriver P α ν :=
  events.foldl (step t) (SiteState.fresh t).driver

/-- The item position and the frontier of the row that is due, if one is. -/
def due (view : StoreView κ ν) : Option (P × ℕ) :=
  match d.nextItem, view.frontier with
  | some (pos, _), some frontier =>
    if d.latestEmit = some (pos, frontier) then none else some (pos, frontier)
  | _, _ => none

/-! ## What one event does -/

lemma readNews_sameRows (news : Option (SourceTile P α)) : SameRows d (d.readNews news) := by
  cases news with
  | none | some => exact ⟨rfl, rfl, rfl, rfl, rfl⟩

omit [LinearOrder P] in
lemma SameRows.trans {d d' d'' : TransactDriver P α ν} (h : SameRows d d') (h' : SameRows d' d'') :
    SameRows d d'' :=
  ⟨h'.window.trans h.window, h'.attempts.trans h.attempts, h'.latestEmit.trans h.latestEmit,
    h'.pushed.trans h.pushed, h'.current.trans h.current⟩

/-- **A pull** pushes the row that is due, at the attempt counter's value, and nothing else. -/
lemma emit_cases (t : TransactSite κ ν P α) (view : StoreView κ ν) (d : TransactDriver P α ν) :
    (d.due view = none ∧ d.emit t view = d) ∨
      ∃ row f, d.due view = some (row.itemPosition, f) ∧ row.position = d.attempts ∧
        d.latestEmit ≠ some (row.itemPosition, f) ∧
        d.emit t view = { d with
          window := d.window ++ [row]
          attempts := d.attempts + 1
          latestEmit := some (row.itemPosition, f)
          pushed := d.pushed ++ [(row, f)] } := by
  rcases hitem : d.nextItem with _ | ⟨pos, item⟩
  · exact .inl ⟨by simp [due, hitem], by simp [emit, hitem]⟩
  · rcases hf : view.frontier with _ | f
    · exact .inl ⟨by simp [due, hitem, hf], by simp [emit, hitem, hf]⟩
    · by_cases hsame : d.latestEmit = some (pos, f)
      · exact .inl ⟨by simp [due, hitem, hf, hsame], by simp [emit, hitem, hf, hsame]⟩
      · refine .inr ⟨⟨t.snapIn view.current item, item, pos, d.attempts⟩, f, ?_, rfl, hsame, ?_⟩
        · simp [due, hitem, hf, hsame]
        · simp [emit, hitem, hf, hsame]

/-- **A release** only drops rows from the window, and leaves the cursor where it does not name the
newest row. -/
lemma releaseRows_frame (r : PositionRelease ℕ) :
    (d.releaseRows r).window.Sublist d.window ∧ (d.releaseRows r).attempts = d.attempts ∧
      (d.releaseRows r).latestEmit = d.latestEmit ∧ (d.releaseRows r).pushed = d.pushed ∧
      ((∀ row, d.window.getLast? = some row → r.contains row.position = false) →
        (d.releaseRows r).current = d.current) := by
  -- first the finish, which is about the cursor alone, then the rows
  have hfinish : ∃ d', (match d.window.getLast? with
      | some row => if r.contains row.position then d.finishItem row.itemPosition else d
      | none => d) = d' ∧ d'.window = d.window ∧ d'.attempts = d.attempts ∧
      d'.latestEmit = d.latestEmit ∧ d'.pushed = d.pushed ∧
      ((∀ row, d.window.getLast? = some row → r.contains row.position = false) →
        d'.current = d.current) := by
    rcases hlast : d.window.getLast? with _ | row
    · exact ⟨d, rfl, rfl, rfl, rfl, rfl, fun _ => rfl⟩
    cases hr : r.contains row.position with
    | false => exact ⟨d, by simp [hr], rfl, rfl, rfl, rfl, fun _ => rfl⟩
    | true =>
      have hsame := releaseSourceThrough_sameRows
        { d with current := some (d.current.elim row.itemPosition (max · row.itemPosition)) }
        (some row.itemPosition)
      refine ⟨d.finishItem row.itemPosition, by simp [hr], hsame.window, hsame.attempts,
        hsame.latestEmit, hsame.pushed, fun h => ?_⟩
      exact absurd (h row rfl) (by simp [hr])
  obtain ⟨d', hd', hwindow, hattempts, hlatest, hpushed, hcurrent⟩ := hfinish
  rw [releaseRows]
  simp only [hd']
  cases r.extent with
  | nothing => exact ⟨hwindow ▸ List.Sublist.refl _, hattempts, hlatest, hpushed, hcurrent⟩
  | through w =>
    refine ⟨?_, hattempts, hlatest, hpushed, hcurrent⟩
    rw [← hwindow]
    exact filter_sublist
  | all => exact ⟨nil_sublist _, hattempts, hlatest, hpushed, hcurrent⟩

/-! ## What a driver keeps -/

/-- The live rows are attempts at one item, and at most two. -/
structure WindowKept (d : TransactDriver P α ν) : Prop where
  one_item : ∀ r ∈ d.window, ∀ r' ∈ d.window, r.itemPosition = r'.itemPosition
  bounded : d.window.length ≤ 2

/-- A row that a pull pushes joins at most one live row, of its own item. -/
def PushesAlone : DriverEvent κ ν P α → Prop
  | .pull news view => ∀ pos f, ((d.readNews news).readPast.due view) = some (pos, f) →
      d.window.length ≤ 1 ∧ ∀ r ∈ d.window, r.itemPosition = pos
  | .release _ => True

/-- Rows are counted in the order they are pushed, and the live ones are among them. -/
structure RowsKept (d : TransactDriver P α ν) : Prop where
  positions : d.pushed.map (·.1.position) = List.range d.attempts
  live : d.window.Sublist (d.pushed.map (·.1))
  latest : d.latestEmit = d.pushed.getLast?.map fun x => (x.1.itemPosition, x.2)

/-- What one event may do to the rows and to the item cursor. -/
structure StepKept (d d' : TransactDriver P α ν) (e : DriverEvent κ ν P α) : Prop where
  /-- Rows pushed before keep their places. -/
  pushed : d.pushed <+: d'.pushed
  /-- A row is pushed only for another item or another frontier than the last one. -/
  fresh : d'.attempts ≠ d.attempts → d'.latestEmit ≠ d.latestEmit
  /-- A release that does not name the newest row leaves the cursor. -/
  cursor : ∀ r, e = .release r →
    (∀ row, d.window.getLast? = some row → r.contains row.position = false) → d'.current = d.current

section Step

variable {t : TransactSite κ ν P α} {d : TransactDriver P α ν} {e : DriverEvent κ ν P α}

/-- **One event**: a release, a pull at which nothing is due, or a pull that pushes one row. -/
lemma step_cases (t : TransactSite κ ν P α) (d : TransactDriver P α ν) (e : DriverEvent κ ν P α) :
    (∃ r, e = .release r ∧ d.step t e = d.releaseRows r) ∨
      (∃ news view, e = .pull news view ∧ (d.readNews news).readPast.due view = none ∧
        SameRows d (d.step t e)) ∨
      ∃ news view row f, e = .pull news view ∧
        (d.readNews news).readPast.due view = some (row.itemPosition, f) ∧
        row.position = d.attempts ∧ d.latestEmit ≠ some (row.itemPosition, f) ∧
        (d.step t e).window = d.window ++ [row] ∧ (d.step t e).attempts = d.attempts + 1 ∧
        (d.step t e).latestEmit = some (row.itemPosition, f) ∧
        (d.step t e).pushed = d.pushed ++ [(row, f)] := by
  cases e with
  | release r => exact .inl ⟨r, rfl, rfl⟩
  | pull news view =>
    have hsame : SameRows d (d.readNews news).readPast :=
      (d.readNews_sameRows news).trans (releaseSourceThrough_sameRows _ _)
    rcases emit_cases t view (d.readNews news).readPast with
      ⟨hdue, heq⟩ | ⟨row, f, hdue, hpos, hne, heq⟩
    · refine .inr (.inl ⟨news, view, rfl, hdue, ?_⟩)
      rw [step, get, heq]
      exact hsame
    · refine .inr (.inr ⟨news, view, row, f, rfl, hdue, ?_, ?_, ?_, ?_, ?_, ?_⟩)
      · rw [hpos, hsame.attempts]
      · rwa [← hsame.latestEmit]
      · rw [step, get, heq, hsame.window]
      · rw [step, get, heq, hsame.attempts]
      · rw [step, get, heq]
      · rw [step, get, heq, hsame.pushed]

lemma RowsKept.step (h : RowsKept d) : RowsKept (d.step t e) := by
  rcases step_cases t d e with ⟨r, rfl, heq⟩ | ⟨_, _, rfl, _, hsame⟩ |
    ⟨_, _, row, f, rfl, _, hpos, _, hwindow, hattempts, hlatest, hpushed⟩
  · obtain ⟨hsub, hattempts, hlatest, hpushed, _⟩ := d.releaseRows_frame r
    rw [heq]
    exact ⟨by rw [hpushed, hattempts, h.positions], by rw [hpushed]; exact hsub.trans h.live,
      by rw [hlatest, hpushed, h.latest]⟩
  · exact ⟨by rw [hsame.pushed, hsame.attempts, h.positions],
      by rw [hsame.window, hsame.pushed]; exact h.live,
      by rw [hsame.latestEmit, hsame.pushed, h.latest]⟩
  · refine ⟨?_, ?_, ?_⟩
    · rw [hpushed, hattempts, map_append, h.positions, range_succ, ← hpos]
      rfl
    · rw [hwindow, hpushed, map_append]
      exact h.live.append (List.Sublist.refl _)
    · rw [hlatest, hpushed, getLast?_append]
      rfl

lemma stepKept (t : TransactSite κ ν P α) (d : TransactDriver P α ν) (e : DriverEvent κ ν P α) :
    StepKept d (d.step t e) e := by
  rcases step_cases t d e with ⟨r, rfl, heq⟩ | ⟨_, _, rfl, _, hsame⟩ |
    ⟨_, _, row, f, rfl, _, hpos, hne, hwindow, hattempts, hlatest, hpushed⟩
  · obtain ⟨_, hattempts, _, hpushed, hcurrent⟩ := d.releaseRows_frame r
    rw [heq]
    refine ⟨by rw [hpushed], fun h => absurd hattempts h, fun r' hr' hnewest => ?_⟩
    obtain rfl := DriverEvent.release.inj hr'
    exact hcurrent hnewest
  · exact ⟨by rw [hsame.pushed], fun h => absurd hsame.attempts h, fun r hr => nomatch hr⟩
  · refine ⟨by rw [hpushed]; exact prefix_append _ _, fun _ => ?_, fun r hr => nomatch hr⟩
    rw [hlatest]
    exact hne.symm

/-- **One event keeps the window** just where a row it pushes is pushed alone. -/
lemma WindowKept.step_iff (h : WindowKept d) : WindowKept (d.step t e) ↔ PushesAlone d e := by
  rcases step_cases t d e with ⟨r, rfl, heq⟩ | ⟨news, view, rfl, hdue, hsame⟩ |
    ⟨news, view, row, f, rfl, hdue, _, _, hwindow, _, _, _⟩
  · obtain ⟨hsub, _⟩ := d.releaseRows_frame r
    refine iff_of_true ?_ trivial
    rw [heq]
    exact ⟨fun a ha b hb => h.one_item a (hsub.subset ha) b (hsub.subset hb),
      hsub.length_le.trans h.bounded⟩
  · refine iff_of_true ?_ fun pos f hpos => ?_
    · exact ⟨by rw [hsame.window]; exact h.one_item, by rw [hsame.window]; exact h.bounded⟩
    · rw [hdue] at hpos
      exact nomatch hpos
  · constructor
    · intro hkept pos f' hpos
      rw [hdue] at hpos
      cases hpos
      have hbound := hkept.bounded
      have hitem := hkept.one_item
      rw [hwindow] at hbound hitem
      rw [length_append, length_singleton] at hbound
      exact ⟨by omega, fun r hr => hitem r (mem_append_left _ hr) row (by simp)⟩
    · intro halone
      obtain ⟨hlen, hitem⟩ := halone _ _ hdue
      have hall : ∀ r ∈ (d.step t (.pull news view)).window, r.itemPosition = row.itemPosition := by
        rw [hwindow]
        intro r hr
        rcases mem_append.mp hr with hr | hr
        · exact hitem r hr
        · rw [mem_singleton.mp hr]
      refine ⟨fun a ha b hb => (hall a ha).trans (hall b hb).symm, ?_⟩
      rw [hwindow, length_append, length_singleton]
      omega

end Step

/-! ## Whole runs -/

/-- What the driver says of its rows, at every point of a run. -/
structure DriverKept (t : TransactSite κ ν P α) (events : List (DriverEvent κ ν P α)) : Prop where
  window : ∀ done, done <+: events → WindowKept (run t done)
  rows : ∀ done, done <+: events → RowsKept (run t done)
  steps : ∀ done e, done ++ [e] <+: events → StepKept (run t done) (run t (done ++ [e])) e

lemma run_append_singleton (t : TransactSite κ ν P α) (done : List (DriverEvent κ ν P α))
    (e : DriverEvent κ ν P α) : run t (done ++ [e]) = (run t done).step t e := by
  rw [run, run, foldl_append, foldl_cons, foldl_nil]

lemma rowsKept_run (t : TransactSite κ ν P α) (events : List (DriverEvent κ ν P α)) :
    RowsKept (run t events) := by
  induction events using List.reverseRecOn with
  | nil => exact ⟨rfl, nil_sublist _, rfl⟩
  | append_singleton done e ih =>
    rw [run_append_singleton]
    exact ih.step

/-- **The driver's window**: at every point of a run its rows are attempts at one item and at most
two, in exactly the runs that push every row onto at most one live row, of the same item.  The rest
holds in every run: positions are the attempt counter's, in turn, and are never renumbered; a row is
pushed only where item or frontier differ from the last one's; and a release that does not name the
newest row leaves the item cursor. -/
theorem driverKept_iff (t : TransactSite κ ν P α) (events : List (DriverEvent κ ν P α)) :
    DriverKept t events ↔ ∀ done e, done ++ [e] <+: events → PushesAlone (run t done) e := by
  constructor
  · intro h done e hpre
    have hbefore := h.window done ((prefix_append _ _).trans hpre)
    have hafter := h.window _ hpre
    rw [run_append_singleton] at hafter
    exact hbefore.step_iff.mp hafter
  · intro h
    refine ⟨fun done hpre => ?_, fun done _ => rowsKept_run t done, fun done e _ => ?_⟩
    · induction done using List.reverseRecOn with
      | nil => exact ⟨nofun, Nat.zero_le _⟩
      | append_singleton done e ih =>
        rw [run_append_singleton]
        exact (ih ((prefix_append _ _).trans hpre)).step_iff.mpr (h done e hpre)
    · rw [run_append_singleton]
      exact stepKept t _ e

/-- A site that reads nothing of the store. -/
def bareSite : TransactSite ℕ ℕ ℕ ℕ where
  rows := []
  ascending := List.Pairwise.nil
  resumedAfter := none
  readKeys := []
  writeKeys := []
  taps := 0
  body _ _ := ⟨false, [], []⟩
  standIn := id

/-- The item at position 1 arrives and is attempted; then the one at position 0 arrives. -/
def lateItem : List (DriverEvent ℕ ℕ ℕ ℕ) :=
  [.pull (some ⟨[(1, some 11)], by simp, false, fun _ => false⟩) ⟨some 0, fun _ => none⟩,
    .pull (some ⟨[(0, some 10), (1, some 11)], by simp, false, fun _ => false⟩)
      ⟨some 0, fun _ => none⟩]

/-- **A late item joins the window** beside the attempt in flight at a later one. -/
theorem late_item_joins_window : (run bareSite lateItem).window.map (·.itemPosition) = [1, 0] ∧
      ¬ DriverKept bareSite lateItem := by
  have hwindow : (run bareSite lateItem).window.map (·.itemPosition) = [1, 0] := by decide
  refine ⟨hwindow, fun h => ?_⟩
  have hone := (h.window lateItem (prefix_refl _)).one_item
  have hmem : ∀ p ∈ [1, 0], ∃ r ∈ (run bareSite lateItem).window, r.itemPosition = p := by
    intro p hp
    rw [← hwindow] at hp
    exact mem_map.mp hp
  obtain ⟨r, hr, hr₁⟩ := hmem 1 (by simp)
  obtain ⟨r', hr', hr₀⟩ := hmem 0 (by simp)
  have := hone r hr r' hr'
  omega

end TransactDriver

end Cambra
