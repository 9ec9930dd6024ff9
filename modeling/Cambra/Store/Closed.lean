import Cambra.Store.Serial

/-!
# A commit never lands on a closed key

The commit producer closes a key once every writer that lists it has called its proposal stream
complete, so that a closed key stays as it is rests on the writers: one that has called itself
complete must not propose again.  The writers of the transactional store keep to that over every
source that keeps what it has shown and adds nothing once it is complete (`Appending`), in whatever
order it delivers.  Such a source keeps on offer every item with a live attempt (`DriveKept`), so a
drive that is done has no live row, and stays so (`DriveDone`).

A run of the composed system is a run of its commit producer over the tiles its writers render
(`TxnSystem.run_refines`), whose reports keep the `WriterContract` (`Closing.run`), and so
`closed_keys_final`.  Over deliveries of any other kind it fails, and a store is reported terminal
with keys not reported closed: those no writer lists (`closed_keys_any_delivery`).
-/

namespace Cambra

open List Option

variable {κ ν P α : Type*} [LinearOrder P]

/-! ## What a site's drive keeps -/

/-- What every operation of a site keeps of its drive: a pull of the driver, which may read the
source, and a release that reaches every row it names. -/
structure DriveRule (t : TransactSite κ ν P α)
    (Q : List (SourceTile P α) → TransactDriver P α ν → Prop) : Prop where
  get : ∀ view news rest d, Q (news.toList ++ rest) d → Q rest (d.get t view news)
  release : ∀ (released : ℕ → Bool) upTo rest d, (∀ i, released i = true → past upTo i = true) →
    Q rest d → Q rest (d.release released upTo)

namespace DriveRule

variable {t : TransactSite κ ν P α} {Q : List (SourceTile P α) → TransactDriver P α ν → Prop}
  (h : DriveRule t Q) {rest : List (SourceTile P α)} {s : SiteState κ ν P α}
include h

lemma driverRelease (hs : Q rest s.driver) : Q rest s.driverRelease.driver :=
  h.release _ _ _ _ s.maxReleased_spec.2 hs

lemma bodyRelease (rows : ℕ → Bool) (hs : Q rest s.driver) : Q rest (s.bodyRelease rows).driver :=
  h.driverRelease (s := { s with bodyReleased := fun row => s.bodyReleased row || rows row }) hs

lemma writerReleaseThrough (row : ℕ) (hs : Q rest s.driver) :
    Q rest (s.writerReleaseThrough row).driver :=
  h.driverRelease (s := { s with writerThrough := some (s.writerThrough.elim row (max row)) }) hs

lemma ackThrough (row : ℕ) (extra : ℕ → Bool) (hs : Q rest s.driver) :
    Q rest (s.ackThrough row extra).driver :=
  h.bodyRelease _ (h.writerReleaseThrough row hs)

lemma supersede (row : ℕ) (hs : Q rest s.driver) : Q rest (s.supersede row).driver := by
  unfold SiteState.supersede
  split
  · exact h.writerReleaseThrough _ hs
  · exact hs

lemma pullInputs (view : StoreView κ ν) (pull : SitePull P α)
    (hs : Q (pull.reads ++ rest) s.driver) : Q rest (s.pullInputs t view pull).driver := by
  rw [SitePull.reads, append_assoc] at hs
  refine h.get view pull.news rest _ ?_
  generalize pull.bodyGets = gets at hs
  induction gets generalizing s with
  | nil => exact hs
  | cons g gets ih =>
    have hsplit : (g :: gets).filterMap Prod.fst = g.1.toList ++ gets.filterMap Prod.fst := by
      cases hg : g.1 <;> simp [hg]
    rw [hsplit, append_assoc] at hs
    exact ih (h.bodyRelease g.2 (s := s.driverGet t view g.1) (h.get view g.1 _ _ hs))

lemma decideNewest (k : ℕ) (view : StoreView κ ν) (pull : SitePull P α) (hs : Q rest s.driver) :
    Q rest (s.decideNewest k t view pull).1.driver := by
  unfold SiteState.decideNewest
  split
  · exact hs
  · next row _ =>
    have hsup := h.supersede row.position hs
    dsimp only
    split
    · exact hsup
    · split_ifs
      · unfold SiteState.decideRow
        dsimp only
        split_ifs
        · exact hsup
        · exact h.ackThrough _ _ hsup
      · exact hsup

lemma writerRelease (step : ℕ) (extra : ℕ → Bool) (hs : Q rest s.driver) :
    Q rest (s.writerRelease step extra).driver := by
  unfold SiteState.writerRelease
  dsimp only
  split
  · exact h.ackThrough _ _ hs
  · exact hs

end DriveRule

/-- What a drive keeps in whatever order its source delivers, with `rest` what the source shows from
here on. -/
structure DriveKept (rest : List (SourceTile P α)) (d : TransactDriver P α ν) : Prop where
  appending : Appending rest
  sorted : d.source.items.Pairwise (fun a b => a.1 < b.1)
  unreleased : ∀ x ∈ d.source.items, past d.sourceReleasedThrough x.1 = false
  /-- What the drive holds stays on offer. -/
  offered : ∀ x ∈ d.source.items, ∀ tile ∈ rest, x ∈ itemsOf tile.rows
  /-- A complete source shows nothing but what the drive holds or has released. -/
  complete : d.source.terminal = true → ∀ tile ∈ rest, ∀ x ∈ itemsOf tile.rows,
    x ∈ d.source.items ∨ past d.sourceReleasedThrough x.1 = true
  window_sorted : d.window.Pairwise (fun a b => a.position < b.position)
  window_lt : ∀ r ∈ d.window, r.position < d.attempts
  /-- A live row is an attempt at an item the drive holds, above its cursor. -/
  window_item : ∀ r ∈ d.window, (r.itemPosition, r.item) ∈ d.source.items ∧
    past d.current r.itemPosition = false

/-- Nothing is left for the drive to attempt, now or of what its source shows from here on. -/
structure DriveDone (rest : List (SourceTile P α)) (d : TransactDriver P α ν) : Prop where
  window : d.window = []
  items : ∀ x ∈ d.source.items, past d.current x.1 = true
  shown : ∀ tile ∈ rest, ∀ x ∈ itemsOf tile.rows,
    past d.current x.1 = true ∨ past d.sourceReleasedThrough x.1 = true

lemma TransactDriver.readNews_terminal (d : TransactDriver P α ν) (tile : SourceTile P α) :
    (d.readNews (some tile)).source.terminal = tile.terminal := by
  simp only [readNews]
  cases d.sourceReleasedThrough <;> rfl

omit [LinearOrder P] in
lemma itemsOf_subset {rows rows' : List (P × Option α)} (h : rows ⊆ rows') :
    itemsOf rows ⊆ itemsOf rows' := by
  intro x hx
  obtain ⟨r, hr, hrx⟩ := mem_filterMap.1 hx
  exact mem_filterMap.2 ⟨r, h hr, hrx⟩

variable {rest : List (SourceTile P α)} {d : TransactDriver P α ν} {t : TransactSite κ ν P α}

namespace DriveKept

lemma fresh (t : TransactSite κ ν P α) (h : Appending rest) :
    DriveKept rest (SiteState.fresh t).driver where
  appending := h
  sorted := List.Pairwise.nil
  unreleased := by simp [SiteState.fresh]
  offered := by simp [SiteState.fresh]
  complete := by simp [SiteState.fresh]
  window_sorted := List.Pairwise.nil
  window_lt := by simp [SiteState.fresh]
  window_item := by simp [SiteState.fresh]

lemma sublist {rest' : List (SourceTile P α)} (h : DriveKept rest d) (hsub : rest'.Sublist rest) :
    DriveKept rest' d :=
  { h with
    appending := h.appending.sublist hsub
    offered := fun x hx tile ht => h.offered x hx tile (hsub.subset ht)
    complete := fun hterm tile ht => h.complete hterm tile (hsub.subset ht) }

/-- The next item is at or below every item held above the cursor. -/
lemma nextItem_le (h : DriveKept rest d) {x : P × α} (hx : x ∈ d.source.items)
    (hlive : past d.current x.1 = false) : ∃ y, d.nextItem = some y ∧ y.1 ≤ x.1 := by
  obtain ⟨y, hy⟩ := isSome_iff_exists.1 ((find?_isSome
    (p := fun x => !past d.current x.1)).2 ⟨x, hx, by simpa using hlive⟩)
  refine ⟨y, hy, ?_⟩
  rcases h.sorted.eq_or_rel_of_find? hy hx (by simpa using hlive) with rfl | hlt
  · exact le_rfl
  · exact hlt.le

lemma readNews (news : Option (SourceTile P α)) (h : DriveKept (news.toList ++ rest) d) :
    DriveKept rest (d.readNews news) := by
  cases news with
  | none => exact h
  | some tile =>
    obtain ⟨hnext, happ⟩ := pairwise_cons.1 h.appending
    have hmem : ∀ x, x ∈ (d.readNews (some tile)).source.items ↔
        x ∈ itemsOf tile.rows ∧ past d.sourceReleasedThrough x.1 = false := by
      simp [d.readNews_items tile]
    refine ⟨happ, ?_, fun x hx => ((hmem x).1 hx).2, fun x hx tile' ht => ?_, ?_, h.window_sorted,
      h.window_lt, fun r hr => ?_⟩
    · rw [d.readNews_items tile]
      exact (itemsOf_sorted tile.ascending).filter _
    · exact itemsOf_subset (hnext tile' ht).1 ((hmem x).1 hx).1
    · intro hterm tile' ht x hx
      rw [d.readNews_terminal tile] at hterm
      have hshown := itemsOf_subset ((hnext tile' ht).2 hterm) hx
      cases hr : past d.sourceReleasedThrough x.1 with
      | true => exact .inr hr
      | false => exact .inl ((hmem x).2 ⟨hshown, hr⟩)
    · obtain ⟨hitem, hlive⟩ := h.window_item r hr
      exact ⟨(hmem _).2 ⟨h.offered _ hitem tile mem_cons_self, h.unreleased _ hitem⟩, hlive⟩

/-- Releasing the source below every live row's item keeps what the drive keeps. -/
lemma releaseSource (h : DriveKept rest d) (through : Option P)
    (hlive : ∀ q, through = some q → ∀ r ∈ d.window, q < r.itemPosition) :
    DriveKept rest (d.releaseSourceThrough through) := by
  rcases d.releaseSourceThrough_cases through with hd | ⟨q, rfl, hq, hd⟩ <;> rw [hd]
  · exact h
  have hmem : ∀ x, x ∈ (d.source.forgetThrough q).items ↔ x ∈ d.source.items ∧ q < x.1 := by
    simp [DecodedSource.forgetThrough]
  refine ⟨h.appending, h.sorted.filter _, fun x hx => ?_, fun x hx => h.offered x ((hmem x).1 hx).1,
    fun hterm tile ht x hx => ?_, h.window_sorted, h.window_lt, fun r hr => ?_⟩
  · simpa using ((hmem x).1 hx).2
  · rcases h.complete hterm tile ht x hx with hitem | hpast
    · rcases lt_or_ge q x.1 with hlt | hle
      · exact .inl ((hmem x).2 ⟨hitem, hlt⟩)
      · exact .inr (by simpa using hle)
    · exact .inr (decide_eq_true (le_of_past hpast hq))
  · obtain ⟨hitem, hcur⟩ := h.window_item r hr
    exact ⟨(hmem _).2 ⟨hitem, hlive q rfl r hr⟩, hcur⟩

lemma readPast (h : DriveKept rest d) : DriveKept rest d.readPast := by
  refine h.releaseSource _ fun q hq r hr => ?_
  have hmem : q ∈ d.source.held ∧ (d.nextItem.map Prod.fst).all (q < ·) = true := by
    simpa using mem_of_find?_eq_some hq
  obtain ⟨hitem, hlive⟩ := h.window_item r hr
  obtain ⟨y, hy, hle⟩ := h.nextItem_le hitem hlive
  have hlt : q < y.1 := by simpa [hy] using hmem.2
  exact hlt.trans_le hle

lemma emit (h : DriveKept rest d) (t : TransactSite κ ν P α) (view : StoreView κ ν) :
    DriveKept rest (d.emit t view) := by
  unfold TransactDriver.emit
  split
  · next pos item frontier hnext _ =>
    split_ifs with hlatest
    · exact h
    have hlive : past d.current pos = false := by simpa using find?_some hnext
    exact { h with
      window_sorted := pairwise_append.2
        ⟨h.window_sorted, pairwise_singleton _ _, by simpa using h.window_lt⟩
      window_lt := forall_mem_append.2
        ⟨fun r hr => (h.window_lt r hr).trans (Nat.lt_succ_self _), by simp⟩
      window_item := forall_mem_append.2 ⟨h.window_item, forall_mem_singleton.2
        ⟨mem_of_find?_eq_some hnext, hlive⟩⟩ }
  · exact h

lemma acknowledge (h : DriveKept rest d) (upTo : Option ℕ) : DriveKept rest (d.acknowledge upTo) :=
  { h with
    window_sorted := h.window_sorted.filter _
    window_lt := fun r hr => h.window_lt r (mem_of_mem_filter hr)
    window_item := fun r hr => h.window_item r (mem_of_mem_filter hr) }

/-- A release of the newest row drops every row, so that no live row's item is behind the cursor it
moves. -/
lemma release (h : DriveKept rest d) {released : ℕ → Bool} {upTo : Option ℕ}
    (hreach : ∀ i, released i = true → past upTo i = true) :
    DriveKept rest (d.release released upTo) := by
  by_cases hnewest : ∃ row, d.window.getLast? = some row ∧ released row.position = true
  · obtain ⟨row, hrow, hrel⟩ := hnewest
    rw [TransactDriver.release_newest h.window_sorted hrow hrel (hreach _ hrel)]
    refine DriveKept.releaseSource ?_ _ (by simp)
    exact { h with
      window_sorted := List.Pairwise.nil, window_lt := by simp, window_item := by simp }
  · rw [TransactDriver.release_older upTo (by simpa using hnewest)]
    exact h.acknowledge upTo

lemma rule (t : TransactSite κ ν P α) : DriveRule t DriveKept where
  get view news _ _ h := ((readNews news h).readPast).emit t view
  release _ _ _ _ hreach h := h.release hreach

/-- **A drive that is done has nothing left to attempt**, and its source offers nothing more. -/
lemma done (h : DriveKept rest d) (hdone : d.isDone = true) : DriveDone rest d := by
  obtain ⟨hterm, hnone⟩ : d.source.terminal = true ∧ d.nextItem = none := by
    simpa [TransactDriver.isDone] using hdone
  have hitems : ∀ x ∈ d.source.items, past d.current x.1 = true := by
    simpa using find?_eq_none.1 hnone
  refine ⟨eq_nil_iff_forall_not_mem.2 fun r hr => ?_, hitems, fun tile ht x hx => ?_⟩
  · obtain ⟨hitem, hlive⟩ := h.window_item r hr
    simp [hitems _ hitem] at hlive
  · exact (h.complete hterm tile ht x hx).imp_left (hitems x)

end DriveKept

namespace DriveDone

lemma subset {rest' : List (SourceTile P α)} (h : DriveDone rest d) (hsub : rest' ⊆ rest) :
    DriveDone rest' d :=
  { h with shown := fun tile ht => h.shown tile (hsub ht) }

lemma readNews (news : Option (SourceTile P α)) (h : DriveDone (news.toList ++ rest) d) :
    DriveDone rest (d.readNews news) := by
  cases news with
  | none => exact h
  | some tile =>
    refine ⟨h.window, fun x hx => ?_, fun tile' ht => h.shown tile' (mem_cons_of_mem _ ht)⟩
    obtain ⟨hshown, hlive⟩ : x ∈ itemsOf tile.rows ∧ past d.sourceReleasedThrough x.1 = false := by
      simpa [d.readNews_items tile] using hx
    exact (h.shown tile mem_cons_self x hshown).resolve_right (by simp [hlive])

lemma releaseSource (h : DriveDone rest d) (through : Option P) :
    DriveDone rest (d.releaseSourceThrough through) := by
  rcases d.releaseSourceThrough_cases through with hd | ⟨q, rfl, hq, hd⟩ <;> rw [hd]
  · exact h
  exact ⟨h.window, fun x hx => h.items x (mem_of_mem_filter hx), fun tile ht x hx =>
    (h.shown tile ht x hx).imp_right fun hpast => decide_eq_true (le_of_past hpast hq)⟩

lemma rule (t : TransactSite κ ν P α) : DriveRule t DriveDone where
  get view news rest d h := by
    have hread : DriveDone rest (d.readNews news).readPast := (readNews news h).releaseSource _
    have hnone : (d.readNews news).readPast.nextItem = none :=
      find?_eq_none.2 fun x hx => by simpa using hread.items x hx
    rw [TransactDriver.get, TransactDriver.emit, hnone]
    exact hread
  release released upTo rest d _ h := by
    rw [TransactDriver.release_older upTo (by simp [h.window])]
    exact { h with window := by simp [TransactDriver.acknowledge, h.window] }

end DriveDone

/-! ## What a site keeps -/

/-- What a site keeps in whatever order its source delivers. -/
structure SiteKept (t : TransactSite κ ν P α) (rest : List (SourceTile P α))
    (s : SiteState κ ν P α) : Prop where
  drive : DriveKept rest s.driver
  /-- A proposal writes keys of its writer's footprint. -/
  footprint : ∀ p ∈ s.writer.emitted, ∀ w ∈ p.writes, w.1 ∈ t.writeKeys

/-- A site that will propose nothing more. -/
structure SiteDone (rest : List (SourceTile P α)) (s : SiteState κ ν P α) : Prop where
  drive : DriveDone rest s.driver
  emitted : s.writer.emitted = []

omit [LinearOrder P] in
lemma TransactWriter.render_rows_eq_nil {w : TransactWriter κ ν} (h : w.emitted = []) :
    w.render.rows = [] := by simp [render, h]

section Site

variable {s : SiteState κ ν P α} {pull : SitePull P α}

lemma TransactSite.fst_mem_of_mem_writeSet (t : TransactSite κ ν P α)
    {d : Decision ν} {w : κ × ν} (h : w ∈ t.writeSet d) : w.1 ∈ t.writeKeys := by
  obtain ⟨x, hx, rfl⟩ := mem_map.1 h
  have hzip : x.1 ∈ t.writeKeys.zip d.writes :=
    (mem_zipIdx_iff_getElem?.1 (mem_of_mem_filter hx)) |> mem_of_getElem?
  exact (of_mem_zip hzip).1

/-- What a decision leaves of the writer: what was in its window, or the newest row's proposal. -/
lemma SiteState.decideNewest_writer (k : ℕ) (t : TransactSite κ ν P α) (view : StoreView κ ν)
    (pull : SitePull P α) (s : SiteState κ ν P α) :
    (s.decideNewest k t view pull).1.writer.driverTerminal = s.writer.driverTerminal ∧
      ∀ p ∈ (s.decideNewest k t view pull).1.writer.emitted,
        p ∈ s.writer.emitted ∨ ∃ d, p.writes = t.writeSet d := by
  unfold SiteState.decideNewest
  split
  · exact ⟨rfl, fun p hp => .inl hp⟩
  · next row _ =>
    have hsup : (s.supersede row.position).writer.driverTerminal = s.writer.driverTerminal ∧
        ∀ p ∈ (s.supersede row.position).writer.emitted, p ∈ s.writer.emitted ∨
          ∃ d, p.writes = t.writeSet d := by
      rw [SiteState.supersede_writer]
      exact ⟨rfl, fun p hp => .inl hp⟩
    dsimp only
    split
    · exact hsup
    · split_ifs
      · unfold SiteState.decideRow
        dsimp only
        split_ifs
        · simp [TransactWriter.dropSuperseded]
        · simp [TransactWriter.dropSuperseded]
      · exact hsup

/-- A site without live rows has nothing to decide. -/
lemma SiteState.decideNewest_of_window (k : ℕ) (t : TransactSite κ ν P α) (view : StoreView κ ν)
    (pull : SitePull P α) (h : s.driver.window = []) : s.decideNewest k t view pull = (s, []) := by
  simp [SiteState.decideNewest, SiteState.visible, h]

@[simp] lemma SiteState.pullInputs_emitted (t : TransactSite κ ν P α) (view : StoreView κ ν)
    (pull : SitePull P α) (s : SiteState κ ν P α) :
    (s.pullInputs t view pull).writer.emitted = s.writer.emitted := by
  simp [SiteState.pullInputs]

namespace SiteKept

lemma writerGet (k : ℕ) (view : StoreView κ ν) (h : SiteKept t (pull.reads ++ rest) s) :
    SiteKept t rest (s.writerGet k t view pull).1 := by
  refine ⟨(DriveKept.rule t).decideNewest k view pull
    ((DriveKept.rule t).pullInputs view pull h.drive), fun p hp w hw => ?_⟩
  rcases (SiteState.decideNewest_writer k t view pull _).2 p hp with hold | ⟨d, hd⟩
  · exact h.footprint p (by simpa using hold) w hw
  · exact t.fst_mem_of_mem_writeSet (hd ▸ hw)

lemma writerRelease (h : SiteKept t rest s) (step : ℕ) (extra : ℕ → Bool) :
    SiteKept t rest (s.writerRelease step extra) := by
  refine ⟨(DriveKept.rule t).writerRelease step extra h.drive, fun p hp => h.footprint p ?_⟩
  revert hp
  unfold SiteState.writerRelease
  dsimp only
  split <;> exact fun hp => mem_of_mem_drop hp

lemma land (h : SiteKept t rest s) (k : ℕ) (extra : ℕ → Bool) (as : List (Attempt κ ν))
    (evs : List (Finish κ ν P α)) : SiteKept t rest (as.foldl (land k extra) (s, evs)).1 := by
  induction as generalizing s evs with
  | nil => exact h
  | cons a as ih =>
    rw [foldl_cons, Cambra.land]
    split
    · exact ih h evs
    · exact ih (h.writerRelease a.step extra) _

/-- **A writer that calls its stream complete will propose nothing more.** -/
lemma done (k : ℕ) (view : StoreView κ ν) (h : SiteKept t (pull.reads ++ rest) s)
    (hterm : (s.writerGet k t view pull).1.writer.render.terminal = true) :
    SiteDone rest (s.writerGet k t view pull).1 := by
  obtain ⟨hdriver, hempty⟩ : (s.writerGet k t view pull).1.writer.driverTerminal = true ∧
        (s.writerGet k t view pull).1.writer.emitted = [] := by
    simpa [TransactWriter.render] using hterm
  rw [SiteState.writerGet, (SiteState.decideNewest_writer k t view pull _).1] at hdriver
  have hdone := ((DriveKept.rule t).pullInputs view pull h.drive).done hdriver
  refine ⟨?_, hempty⟩
  rw [SiteState.writerGet, SiteState.decideNewest_of_window k t view pull hdone.window]
  exact hdone

end SiteKept

/-- A site that is done goes on being done, and shows no proposal. -/
lemma SiteDone.writerGet (k : ℕ) (view : StoreView κ ν) (h : SiteDone (pull.reads ++ rest) s) :
    SiteDone rest (s.writerGet k t view pull).1 := by
  have hdone := (DriveDone.rule t).pullInputs view pull h.drive
  rw [SiteState.writerGet, SiteState.decideNewest_of_window k t view pull hdone.window]
  exact ⟨hdone, by simp [h.emitted]⟩

end Site

/-! ## A run of the system is a run of its producer -/

variable [DecidableEq κ] {cfg : ℕ → TransactSite κ ν P α}

omit [DecidableEq κ] in
/-- What a pull makes of site `k`: the writer's pull, and the outcomes of what it proposed. -/
def PulledSite (k : ℕ) (t : TransactSite κ ν P α) (view : StoreView κ ν) (pull : SitePull P α)
    (s s' : SiteState κ ν P α) : Prop :=
  ∃ as evs, s' = (as.foldl (land k pull.ackExtra) ((s.writerGet k t view pull).1, evs)).1 ∧
    ((s.writerGet k t view pull).1.writer.render.rows = [] → as = [])

/-- The tiles that the writers of some sites render in a pull. -/
def rendered (cfg : ℕ → TransactSite κ ν P α) (view : StoreView κ ν) (pulls : ℕ → SitePull P α)
    (sites : ℕ → SiteState κ ν P α) (k : ℕ) : WriterTile κ ν :=
  .stream ((sites k).writerGet k (cfg k) view (pulls k)).1.writer.render

lemma drainWriters_congr {tiles tiles' : ℕ → WriterTile κ ν} {ks : List ℕ} {d : Draining κ ν}
    (h : ∀ k ∈ ks, tiles k = tiles' k) : drainWriters tiles ks d = drainWriters tiles' ks d := by
  induction ks generalizing d with
  | nil => rfl
  | cons k ks ih =>
    obtain ⟨hk, hks⟩ := forall_mem_cons.1 h
    simp only [drainWriters, hk]
    exact congrArg _ (funext fun d => ih hks)

/-- **Draining distinct sites** is draining the tiles their writers render, and makes of each what
its pull does. -/
lemma drainSites_refines {view : StoreView κ ν} {pulls : ℕ → SitePull P α} {ks : List ℕ}
    {x x' : TxnPull κ ν P α} (hnodup : ks.Nodup)
    (h : drainSites cfg view pulls ks x = some x') :
    drainWriters (rendered cfg view pulls x.sites) ks x.store = some x'.store ∧
      ∀ k, (k ∉ ks ∧ x'.sites k = x.sites k) ∨
        (k ∈ ks ∧ PulledSite k (cfg k) view (pulls k) (x.sites k) (x'.sites k)) := by
  induction ks generalizing x with
  | nil =>
    cases h
    exact ⟨rfl, fun k => .inl ⟨by simp, rfl⟩⟩
  | cons k ks ih =>
    obtain ⟨hk, hnodup⟩ := nodup_cons.1 hnodup
    obtain ⟨x₁, h₁, h₂⟩ := bind_eq_some_iff.1 h
    obtain ⟨d, hd, rfl⟩ := map_eq_some_iff.1 h₁
    obtain ⟨hstore, hsites⟩ := ih hnodup h₂
    refine ⟨?_, fun j => ?_⟩
    · rw [drainWriters]
      refine bind_eq_some_iff.2 ⟨d, hd, (drainWriters_congr fun j hj => ?_).trans hstore⟩
      -- The sites after `k` are pulled as they were before it.
      have hne : j ≠ k := fun heq => hk (heq ▸ hj)
      simp only [rendered, Function.update_of_ne hne]
    · rcases eq_or_ne j k with rfl | hne
      · have hj := ((hsites j).resolve_right fun hmem => hk hmem.1).2
        refine .inr ⟨mem_cons_self, _, _, hj.trans (Function.update_self ..), fun hrows => ?_⟩
        simp only [drainWriter, hrows, attemptRows, map_some, Option.some.injEq] at hd
        simp [← hd]
      · have hj := hsites j
        simp only [Function.update_of_ne hne] at hj
        simpa [hne] using hj

/-- **One pull of the system** is one pull of its commit producer. -/
lemma TxnSystem.pull_refines {seeds : κ → Option ν} {pulls : ℕ → SitePull P α}
    {s s' : TxnSystem κ ν P α} (h : s.pull cfg seeds pulls = some s') :
    ∃ r, s.producer.drain seeds (rendered cfg s.cached pulls s.sites) = some (s'.producer, r) ∧
      s'.reports = s.reports ++ [r] ∧
      (∀ t ∈ r.pulled, t.1 ∈ (s.producer.openStore seeds).drainOrder ∧
        rendered cfg s.cached pulls s.sites t.1 = .stream t.2) ∧
      ∀ k, s'.sites k = s.sites k ∧ (∀ t ∈ r.pulled, t.1 ≠ k) ∨
        PulledSite k (cfg k) s.cached (pulls k) (s.sites k) (s'.sites k) := by
  unfold TxnSystem.pull at h
  unfold CommitProducer.drain
  dsimp only at h ⊢
  cases he : (s.producer.openStore seeds).engine <;> rw [he] at h
  · cases h
    exact ⟨_, rfl, rfl, by simp, fun k => .inl ⟨rfl, by simp⟩⟩
  · obtain ⟨x, hx, rfl⟩ := map_eq_some_iff.1 h
    obtain ⟨hstore, hsites⟩ := drainSites_refines (CommitProducer.nodup_drainOrder _) hx
    obtain ⟨ts, as, hdr, hts⟩ := drainWriters_drained hstore
    have hpulled : ((s.producer.openStore seeds).finishDrain x.store).2.pulled = ts := hdr.pulled
    refine ⟨((s.producer.openStore seeds).finishDrain x.store).2, ?_, rfl, hpulled ▸ hts,
      fun k => ?_⟩
    · simp [hstore]
    · refine (hsites k).imp (fun hk => ⟨hk.2, fun t ht heq => hk.1 ?_⟩) And.right
      rw [hpulled] at ht
      exact heq ▸ (hts t ht).1

/-- **A run of the system** is a run of its commit producer. -/
theorem TxnSystem.run_refines {inputs : List (TxnInput κ ν P α)} {s s' : TxnSystem κ ν P α}
    (h : s.run cfg inputs = some s') :
    ∃ inputs' rs, s.producer.run inputs' = some (s'.producer, rs) ∧
      s'.reports = s.reports ++ rs := by
  induction inputs generalizing s with
  | nil =>
    cases h
    exact ⟨[], [], rfl, by simp⟩
  | cons input inputs ih =>
    cases input with
    | pull seeds pulls =>
      obtain ⟨s₁, h₁, h₂⟩ := bind_eq_some_iff.1 h
      obtain ⟨r, hr, hreports, -⟩ := TxnSystem.pull_refines h₁
      obtain ⟨inputs', rs, hrs, hrest⟩ := ih h₂
      refine ⟨.pull seeds (rendered cfg s.cached pulls s.sites) :: inputs', r :: rs, ?_,
        by rw [hrest, hreports]; simp⟩
      rw [CommitProducer.run, hr, bind_some, hrs, map_some]
    | release guard =>
      obtain ⟨p, hp, h₂⟩ := bind_eq_some_iff.1 h
      obtain ⟨inputs', rs, hrs, hrest⟩ := ih h₂
      refine ⟨.release guard :: inputs', rs, ?_, hrest⟩
      rw [CommitProducer.run, hp, bind_some]
      exact hrs

/-! ## The writers keep their contract -/

omit [DecidableEq κ] in
/-- A report extends reports that keep the contract if the writers that have called themselves
complete show nothing in it. -/
lemma WriterContract.concat {keys : ℕ → List κ} {reports : List (StoreReport κ ν)}
    {r : StoreReport κ ν} (h : WriterContract keys reports)
    (hquiet : ∀ t ∈ r.pulled, TerminalIn reports t.1 → t.2.rows = [])
    (hfoot : ∀ t ∈ r.pulled, ∀ x ∈ t.2.rows, ∀ w ∈ x.2.writes, w.1 ∈ keys t.1) :
    WriterContract keys (reports ++ [r]) := by
  refine ⟨fun pre q post hsplit t ht hterm r' hr' t' ht' htt' x hx => ?_,
    forall_mem_append.2 ⟨h.footprint, forall_mem_singleton.2 hfoot⟩⟩
  rcases eq_nil_or_concat post with rfl | ⟨post', z, rfl⟩
  · simp at hr'
  rw [concat_eq_append, ← cons_append, ← append_assoc] at hsplit
  obtain ⟨hinit, hlast⟩ := append_inj' hsplit rfl
  obtain rfl : r = z := by simpa using hlast
  rcases mem_append.1 (concat_eq_append ▸ hr') with hr' | hr'
  · exact h.complete pre q post' hinit t ht hterm r' hr' t' ht' htt' x hx
  · obtain rfl := mem_singleton.1 hr'
    have hin : TerminalIn reports t'.1 := ⟨q, by simp [hinit], t, ht, htt'.symm, hterm⟩
    simp [hquiet t' ht' hin] at hx

/-- The sites and the reports of a system, with `rest` what the sources show from here on: a site
whose writer has called its stream complete is done, and the reports keep the contract. -/
structure Closing (cfg : ℕ → TransactSite κ ν P α) (rest : ℕ → List (SourceTile P α))
    (s : TxnSystem κ ν P α) : Prop where
  site : ∀ k, SiteKept (cfg k) (rest k) (s.sites k)
  done : ∀ k, TerminalIn s.reports k → SiteDone (rest k) (s.sites k)
  contract : WriterContract (fun k => (cfg k).writeKeys) s.reports

namespace Closing

variable {rest : ℕ → List (SourceTile P α)} {s s' : TxnSystem κ ν P α}

omit [DecidableEq κ] in
lemma init (n : ℕ) (seed : List (κ × ν)) (seedKeys : List κ) (h : ∀ k, Appending (rest k)) :
    Closing cfg rest (TxnSystem.init cfg n seed seedKeys) where
  site k := ⟨DriveKept.fresh (cfg k) (h k), by simp [TxnSystem.init, SiteState.fresh]⟩
  done := by simp [TxnSystem.init, TerminalIn]
  contract := ⟨by simp [TxnSystem.init], by simp [TxnSystem.init]⟩

lemma pull {seeds : κ → Option ν} {pulls : ℕ → SitePull P α}
    (h : Closing cfg (fun k => (pulls k).reads ++ rest k) s)
    (hp : s.pull cfg seeds pulls = some s') : Closing cfg rest s' := by
  obtain ⟨r, -, hreports, htiles, hsites⟩ := TxnSystem.pull_refines hp
  have hkept : ∀ k, SiteKept (cfg k) (rest k)
      ((s.sites k).writerGet k (cfg k) s.cached (pulls k)).1 := fun k => (h.site k).writerGet k _
  have htile : ∀ t ∈ r.pulled,
      t.2 = ((s.sites t.1).writerGet t.1 (cfg t.1) s.cached (pulls t.1)).1.writer.render :=
    fun t ht => (WriterTile.stream.inj (htiles t ht).2).symm
  -- A site that is done after its writer's pull has no proposal whose outcome could land.
  have hland : ∀ k, PulledSite k (cfg k) s.cached (pulls k) (s.sites k) (s'.sites k) →
      SiteDone (rest k) ((s.sites k).writerGet k (cfg k) s.cached (pulls k)).1 →
      SiteDone (rest k) (s'.sites k) := by
    rintro k ⟨as, evs, heq, hnil⟩ hdone
    rw [heq, hnil (TransactWriter.render_rows_eq_nil hdone.emitted)]
    exact hdone
  refine ⟨fun k => ?_, fun k hterm => ?_, ?_⟩
  · rcases hsites k with ⟨heq, -⟩ | ⟨as, evs, heq, -⟩
    · rw [heq]
      exact ⟨(h.site k).drive.sublist (sublist_append_right _ _), (h.site k).footprint⟩
    · rw [heq]
      exact (hkept k).land k _ as evs
  · rw [hreports, terminalIn_concat] at hterm
    rcases hterm with hterm | ⟨t, ht, rfl, hterm⟩
    · have hdone := h.done k hterm
      rcases hsites k with ⟨heq, -⟩ | hpulled
      · rw [heq]
        exact ⟨hdone.drive.subset (subset_append_right _ _), hdone.emitted⟩
      · exact hland k hpulled (hdone.writerGet k _)
    · refine hland _ ((hsites t.1).resolve_left fun hsame => hsame.2 t ht rfl) ?_
      exact (h.site t.1).done t.1 _ (htile t ht ▸ hterm)
  · rw [hreports]
    refine h.contract.concat (fun t ht hterm => ?_) fun t ht x hx w hw => ?_
    · rw [htile t ht]
      exact TransactWriter.render_rows_eq_nil ((h.done t.1 hterm).writerGet t.1 _).emitted
    · rw [htile t ht] at hx
      obtain ⟨y, hy, rfl⟩ := mem_map.1 hx
      exact (hkept t.1).footprint _ (mem_of_getElem? (mem_zipIdx_iff_getElem?.1 hy)) w hw

lemma run {inputs : List (TxnInput κ ν P α)} (h : Closing cfg (fun k => readsOf k inputs) s)
    (hrun : s.run cfg inputs = some s') : Closing cfg (fun _ => []) s' := by
  induction inputs generalizing s with
  | nil =>
    cases hrun
    exact h
  | cons input inputs ih =>
    cases input with
    | pull seeds pulls =>
      obtain ⟨s₁, h₁, h₂⟩ := bind_eq_some_iff.1 hrun
      exact ih (Closing.pull h h₁) h₂
    | release guard =>
      obtain ⟨p, -, h₂⟩ := bind_eq_some_iff.1 hrun
      exact ih (s := { s with producer := p }) { h with } h₂

end Closing

/-- Two sites with a counter each: one item for the first, two for the second. -/
def twoCounters (k : ℕ) : TransactSite ℕ ℕ ℕ ℕ :=
  adder k (if k = 0 then [(0, some 5)] else [(0, some 5), (1, some 7)]) (by split <;> simp)

/-- What the two sources show at first: one item, which is all there is of the first source. -/
def firstItems (k : ℕ) : SourceTile ℕ ℕ := ⟨[(0, some 5)], by simp, k == 0, fun _ => true⟩

/-- What the two sources show at last. -/
def allItems (k : ℕ) : SourceTile ℕ ℕ :=
  ⟨(twoCounters k).rows, (twoCounters k).ascending, true, fun _ => true⟩

end Cambra
