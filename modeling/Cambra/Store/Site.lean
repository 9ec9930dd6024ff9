import Cambra.Store.Transact
import Mathlib.Data.List.Find
import Mathlib.Data.List.Infix

/-!
# What a transaction site keeps

`DriverInv` is the invariant of one site's drive over a source that delivers in order, and `SiteInv`
adds the fan-out slots; every operation of `SiteState` keeps them, in any order:

* the drive's next item is the lowest item of the source above its cursor (`nextItem_eq`), and
  every row of its window is an attempt at that item;
* the newest row is the last one emitted, built at the frontier of the latest emit, and the
  writer has not released it;
* the items finished so far are exactly the items of the source from where the drive started up
  to its cursor, in source order.

Only the release of the newest row finishes an item (`DriverInv.finish`); every other release
leaves the newest row and the cursor alone (`DriverInv.keep`).  A row is described by a
predicate `ok` on the row and the frontier it was built at, which the store above instantiates.
-/

namespace Cambra

open List hiding getElem?_eq_some_iff
open Option hiding filter_filter

variable {κ ν P α : Type*} [LinearOrder P]

/-! ## Cursors and source order -/

@[simp] lemma past_none (p : P) : past none p = false := rfl

@[simp] lemma past_some (q p : P) : past (some q) p = decide (p ≤ q) := rfl

variable {q : P} {rows : List (P × Option α)} {x : P × α} {f : ℕ} {ok' : DriverRow P α ν × ℕ → Prop}
  {row : DriverRow P α ν} {view : StoreView κ ν}

lemma past_mono {c : Option P} {p : P} (hq : past c q = true) (hpq : p ≤ q) : past c p = true := by
  cases c with
  | none => simp at hq
  | some r => simpa using hpq.trans (by simpa using hq)

lemma le_of_past {c : Option P} {p : P} (hp : past c p = true) (hq : past c q = false) : p ≤ q := by
  by_contra hlt
  simp [past_mono hp (not_le.1 hlt).le] at hq

lemma itemsOf_sorted (h : rows.Pairwise (fun a b => a.1 < b.1)) :
    (itemsOf rows).Pairwise (fun a b => a.1 < b.1) := by
  refine h.filterMap _ fun a b hab x hx y hy => ?_
  obtain ⟨_, -, rfl⟩ := map_eq_some_iff.1 hx
  obtain ⟨_, -, rfl⟩ := map_eq_some_iff.1 hy
  exact hab

omit [LinearOrder P] in
lemma itemsOf_isPrefix {shown : List (P × Option α)} (h : shown <+: rows) :
    itemsOf shown <+: itemsOf rows :=
  h.filterMap _

/-- An item at or below a position shown is shown. -/
lemma mem_itemsOf_shown (hrows : rows.Pairwise (fun a b => a.1 < b.1))
    {shown : List (P × Option α)} (hshown : shown <+: rows) (hx : x ∈ itemsOf rows)
    {r : P × Option α} (hr : r ∈ shown) (hle : x.1 ≤ r.1) : x ∈ itemsOf shown := by
  obtain ⟨rest, rfl⟩ := hshown
  obtain ⟨y, hy, hyx⟩ := mem_filterMap.1 hx
  rcases mem_append.1 hy with hy | hy
  · exact mem_filterMap.2 ⟨y, hy, hyx⟩
  · obtain ⟨a, -, rfl⟩ := map_eq_some_iff.1 hyx
    exact absurd ((pairwise_append.1 hrows).2.2 r hr y hy) (not_lt.2 hle)

/-- The next item, read off delivered items of which the released ones are finished. -/
lemma nextItem_of_items {d : TransactDriver P α ν} {delivered : List (P × α)}
    (hitems : d.source.items = delivered.filter fun x => !past d.sourceReleasedThrough x.1)
    (hpast : ∀ x ∈ delivered, past d.sourceReleasedThrough x.1 = true → past d.current x.1 = true) :
    d.nextItem = delivered.find? fun x => !past d.current x.1 := by
  rw [TransactDriver.nextItem, DecodedSource.nextDelivered, hitems, find?_filter]
  refine find?_congr fun x hx => ?_
  cases hr : past d.sourceReleasedThrough x.1 with
  | false => simp
  | true => simp [hpast x hx hr]

namespace TransactDriver

/-- What a read leaves to the drive: the items shown that it has not released. -/
lemma readNews_items (d : TransactDriver P α ν) (tile : SourceTile P α) :
    (d.readNews (some tile)).source.items =
      (itemsOf tile.rows).filter fun x => !past d.sourceReleasedThrough x.1 := by
  simp only [readNews]
  cases d.sourceReleasedThrough with
  | none => simp
  | some r => simp [DecodedSource.forgetThrough, ← not_le]

variable {d : TransactDriver P α ν} {released : ℕ → Bool} {upTo : Option ℕ}

omit [LinearOrder P] in
/-- A release that reaches the newest row reaches every row. -/
lemma filter_eq_nil_of_newest {window : List (DriverRow P α ν)}
    (hsorted : window.Pairwise (fun a b => a.position < b.position))
    (hrow : window.getLast? = some row) (hupTo : past upTo row.position = true) :
    window.filter (fun r => !past upTo r.position) = [] := by
  rw [filter_eq_nil_iff]
  intro r hr
  have hle : r.position ≤ row.position := by
    obtain ⟨l, rfl⟩ := getLast?_eq_some_iff.1 hrow
    rcases mem_append.1 hr with hr | hr
    · exact ((pairwise_append.1 hsorted).2.2 r hr row (by simp)).le
    · rw [mem_singleton.1 hr]
  simp [past_mono hupTo hle]

/-- The release of the newest row moves the cursor onto its item and drops every row. -/
lemma release_newest (hsorted : d.window.Pairwise (fun a b => a.position < b.position))
    (hrow : d.window.getLast? = some row) (hrel : released row.position = true)
    (hupTo : past upTo row.position = true) :
    d.release released upTo = { d with
        current := some (d.current.elim row.itemPosition (max · row.itemPosition))
        window := [] }.releaseSourceThrough (some row.itemPosition) := by
  have hempty := filter_eq_nil_of_newest hsorted hrow hupTo
  simp only [release, hrow, hrel, if_true, finishItem, acknowledge, releaseSourceThrough]
  split_ifs <;> simp [hempty]

lemma release_older (upTo : Option ℕ)
    (h : ∀ row, d.window.getLast? = some row → released row.position = false) :
    d.release released upTo = d.acknowledge upTo := by
  unfold release
  split
  · next row hrow => simp [h row hrow]
  · rfl

/-- A release of the source moves its watermark up, or changes nothing. -/
lemma releaseSourceThrough_cases (d : TransactDriver P α ν) (through : Option P) :
    d.releaseSourceThrough through = d ∨ ∃ q, through = some q ∧
      past d.sourceReleasedThrough q = false ∧ d.releaseSourceThrough through =
        { d with source := d.source.forgetThrough q, sourceReleasedThrough := some q } := by
  unfold releaseSourceThrough
  split
  · exact .inl rfl
  · split_ifs with hq
    · exact .inl rfl
    · exact .inr ⟨_, rfl, by simpa using hq, rfl⟩

/-- The rows of two states are the same, live and past, and the item cursor too. -/
structure SameRows (d d' : TransactDriver P α ν) : Prop where
  window : d'.window = d.window
  attempts : d'.attempts = d.attempts
  latestEmit : d'.latestEmit = d.latestEmit
  pushed : d'.pushed = d.pushed
  current : d'.current = d.current

lemma releaseSourceThrough_sameRows (d : TransactDriver P α ν) (through : Option P) :
    SameRows d (d.releaseSourceThrough through) := by
  rcases d.releaseSourceThrough_cases through with hd | ⟨q, -, -, hd⟩ <;> rw [hd] <;>
    exact ⟨rfl, rfl, rfl, rfl, rfl⟩

@[simp] lemma readPast_window (d : TransactDriver P α ν) : d.readPast.window = d.window :=
  (d.releaseSourceThrough_sameRows _).window

@[simp] lemma readPast_attempts (d : TransactDriver P α ν) : d.readPast.attempts = d.attempts :=
  (d.releaseSourceThrough_sameRows _).attempts

/-- An emit leaves the window alone, or appends a row at the attempt counter. -/
lemma emit_frame (t : TransactSite κ ν P α) (view : StoreView κ ν) (d : TransactDriver P α ν) :
    d.attempts ≤ (d.emit t view).attempts ∧ ((d.emit t view).window = d.window ∨
      ∃ row, (d.emit t view).window = d.window ++ [row] ∧ row.position = d.attempts) := by
  unfold emit
  split
  · split_ifs
    · exact ⟨le_rfl, .inl rfl⟩
    · exact ⟨Nat.le_succ _, .inr ⟨_, rfl, rfl⟩⟩
  · exact ⟨le_rfl, .inl rfl⟩

end TransactDriver

/-! ## The invariant -/

/-- What a drive keeps, with `shown` the rows its source has shown it and `finished` the source
positions finished so far. -/
structure DriverInv (t : TransactSite κ ν P α) (ok : DriverRow P α ν × ℕ → Prop)
    (finished : List P) (shown : List (P × Option α)) (d : TransactDriver P α ν) : Prop where
  shown_begins : shown <+: t.rows
  /-- The drive holds what the source showed and the drive has not released. -/
  items_eq : d.source.items = (itemsOf shown).filter fun x => !past d.sourceReleasedThrough x.1
  held_mem : ∀ p ∈ d.source.held, ∃ r ∈ shown, r.1 = p
  /-- A released item is finished. -/
  released_past : ∀ x ∈ itemsOf t.rows, past d.sourceReleasedThrough x.1 = true →
    past d.current x.1 = true
  resumed_past : ∀ p, past t.resumedAfter p = true → past d.current p = true
  /-- The finished items are those from the drive's start up to its cursor. -/
  finished_eq : finished = ((itemsOf t.rows).filter fun x =>
    !past t.resumedAfter x.1 && past d.current x.1).map Prod.fst
  pushed_pos : d.pushed.map (·.1.position) = List.range d.attempts
  pushed_ok : ∀ x ∈ d.pushed, ok x
  window_sorted : d.window.Pairwise (fun a b => a.position < b.position)
  window_pos : ∀ r ∈ d.window, r.position < d.attempts
  /-- Every live row is an attempt at the next item. -/
  window_item : ∀ r ∈ d.window, d.nextItem = some (r.itemPosition, r.item)
  /-- The newest live row is the last one emitted. -/
  window_last : ∀ r, d.window.getLast? = some r → ∃ f,
    d.pushed.getLast? = some (r, f) ∧ d.latestEmit = some (r.itemPosition, f)

/-- Every row a driver could build of the view is as described. -/
def Describes (t : TransactSite κ ν P α) (ok : DriverRow P α ν × ℕ → Prop)
    (view : StoreView κ ν) : Prop :=
  ∀ f, view.frontier = some f → ∀ item pos p, ok (⟨t.snapIn view.current item, item, pos, p⟩, f)

variable {t : TransactSite κ ν P α} {ok : DriverRow P α ν × ℕ → Prop} {finished : List P}
  {shown : List (P × Option α)} {d : TransactDriver P α ν} {s : SiteState κ ν P α}

namespace DriverInv

lemma fresh (t : TransactSite κ ν P α) (ok : DriverRow P α ν × ℕ → Prop) :
    DriverInv t ok [] [] (SiteState.fresh t).driver where
  shown_begins := nil_prefix
  items_eq := by simp [SiteState.fresh, itemsOf]
  held_mem := by simp [SiteState.fresh]
  released_past _ _ h := h
  resumed_past _ h := h
  finished_eq := by simp [SiteState.fresh]
  pushed_pos := rfl
  pushed_ok := by simp [SiteState.fresh]
  window_sorted := List.Pairwise.nil
  window_pos := by simp [SiteState.fresh]
  window_item := by simp [SiteState.fresh]
  window_last := by simp [SiteState.fresh]

variable (h : DriverInv t ok finished shown d)
include h

lemma mono (hok : ∀ x, ok x → ok' x) : DriverInv t ok' finished shown d :=
  { h with pushed_ok := fun x hx => hok x (h.pushed_ok x hx) }

/-- The next item is the first delivered one above the cursor. -/
lemma nextItem_eq : d.nextItem = (itemsOf shown).find? fun x => !past d.current x.1 :=
  nextItem_of_items h.items_eq fun x hx =>
    h.released_past x ((itemsOf_isPrefix h.shown_begins).subset hx)

/-- The next item is the lowest one of the whole source above the cursor. -/
lemma nextItem_split (hx : d.nextItem = some x) :
    past d.current x.1 = false ∧ ∃ pre post, itemsOf t.rows = pre ++ x :: post ∧
      ∀ y ∈ pre, past d.current y.1 = true := by
  rw [h.nextItem_eq] at hx
  obtain ⟨hlive, pre, post, hsplit, hpre⟩ := find?_eq_some_iff_append.1 hx
  obtain ⟨rest, hrest⟩ := itemsOf_isPrefix h.shown_begins
  refine ⟨by simpa using hlive, pre, post ++ rest, ?_, fun y hy => by simpa using hpre y hy⟩
  rw [← hrest, hsplit]
  simp

lemma pushed_get {x : DriverRow P α ν × ℕ} (hx : x ∈ d.pushed) :
    d.pushed[x.1.position]? = some x := by
  obtain ⟨i, hi⟩ := mem_iff_getElem?.1 hx
  have hpos : (d.pushed.map (·.1.position))[i]? = some x.1.position := by simp [hi]
  rw [h.pushed_pos] at hpos
  obtain ⟨_, heq⟩ := List.getElem?_eq_some_iff.1 hpos
  rw [getElem_range] at heq
  rw [← heq, hi]

/-! ## Reading the source -/

/-- Releasing the source keeps the invariant where everything released is finished. -/
lemma releaseSource (through : Option P)
    (hpast : ∀ q, through = some q → ∀ x ∈ itemsOf t.rows, x.1 ≤ q → past d.current x.1 = true) :
    DriverInv t ok finished shown (d.releaseSourceThrough through) := by
  rcases d.releaseSourceThrough_cases through with hd | ⟨q, rfl, hq, hd⟩
  · rwa [hd]
  have hitems : (d.source.forgetThrough q).items =
      (itemsOf shown).filter fun x => !past (some q) x.1 := by
    rw [DecodedSource.forgetThrough, h.items_eq, filter_filter]
    refine filter_congr fun x _ => ?_
    cases hr : d.sourceReleasedThrough with
    | none => simp [← not_le]
    | some r =>
      have hlt : r < q := by simpa [hr] using hq
      simp only [past_some, ← not_le, decide_not, Bool.and_eq_left_iff_imp]
      intro hxq
      simp only [Bool.not_eq_eq_eq_not, Bool.not_true, decide_eq_false_iff_not, not_le] at hxq ⊢
      exact hlt.trans hxq
  have hrel : ∀ x ∈ itemsOf t.rows, past (some q) x.1 = true → past d.current x.1 = true :=
    fun x hx hxq => hpast q rfl x hx (by simpa using hxq)
  have hnext : (d.releaseSourceThrough (some q)).nextItem = d.nextItem := by
    rw [h.nextItem_eq, hd]
    exact nextItem_of_items hitems fun x hx =>
      hrel x ((itemsOf_isPrefix h.shown_begins).subset hx)
  rw [hd] at hnext ⊢
  exact { h with
    items_eq := hitems
    held_mem := fun p hp => h.held_mem p (mem_of_mem_filter hp)
    released_past := hrel
    window_item := fun r hr => hnext.trans (h.window_item r hr) }

lemma readNews {tile : SourceTile P α} (hshown : shown <+: tile.rows)
    (hrows : tile.rows <+: t.rows) :
    DriverInv t ok finished tile.rows (d.readNews (some tile)) := by
  have hitems := d.readNews_items tile
  have hheld : ∀ p ∈ (d.readNews (some tile)).source.held, ∃ r ∈ tile.rows, r.1 = p := by
    intro p hp
    simp only [TransactDriver.readNews] at hp
    cases hr : d.sourceReleasedThrough with
    | none => exact mem_map.1 (by simpa only [hr] using hp)
    | some r =>
      simp only [hr, DecodedSource.forgetThrough] at hp
      exact mem_map.1 (mem_of_mem_filter hp)
  -- The rows read before begin the rows read now, so an item found stays found.
  have hnext : ∀ x, d.nextItem = some x → (d.readNews (some tile)).nextItem = some x := by
    intro x hx
    rw [nextItem_of_items hitems fun y hy =>
      h.released_past y ((itemsOf_isPrefix hrows).subset hy)]
    rw [h.nextItem_eq] at hx
    obtain ⟨rest, hrest⟩ := itemsOf_isPrefix hshown
    rw [← hrest, find?_append]
    change (List.find? (fun x => !past d.current x.1) (itemsOf shown)).or _ = _
    rw [hx, some_or]
  exact { h with
    shown_begins := hrows
    items_eq := hitems
    held_mem := hheld
    window_item := fun r hr => hnext _ (h.window_item r hr) }

/-- What a drive reads past is finished or filtered. -/
lemma readThrough_past
    (hq : d.source.readThrough (d.nextItem.map Prod.fst) d.sourceComplete = some q)
    (hx : x ∈ itemsOf t.rows) (hxq : x.1 ≤ q) : past d.current x.1 = true := by
  have hmem : q ∈ d.source.held ∧ (d.nextItem.map Prod.fst).all (q < ·) = true := by
    simpa using mem_of_find?_eq_some hq
  obtain ⟨r, hr, rfl⟩ := h.held_mem q hmem.1
  have hdel := mem_itemsOf_shown t.ascending h.shown_begins hx hr hxq
  by_contra hlive
  -- Were it above the cursor, the next item would be at or below it.
  have hsome := (find?_isSome (p := fun x => !past d.current x.1)).2 ⟨x, hdel, by simpa using hlive⟩
  obtain ⟨y, hy⟩ := isSome_iff_exists.1 hsome
  have hqy : r.1 < y.1 := by simpa [h.nextItem_eq.trans hy] using hmem.2
  have hsorted := itemsOf_sorted (t.ascending.sublist h.shown_begins.sublist)
  rcases hsorted.eq_or_rel_of_find? hy hdel (by simpa using hlive) with rfl | hyx
  · exact absurd hqy (not_lt.2 hxq)
  · exact absurd (hqy.trans hyx) (not_lt.2 hxq)

/-! ## Emitting a row -/

/-- Emitting a row keeps the invariant, where the rows it may emit are as described. -/
lemma emit (hview : Describes t ok view) : DriverInv t ok finished shown (d.emit t view) := by
  unfold TransactDriver.emit
  split
  · next pos item frontier hnext hfrontier =>
    split_ifs with hlatest
    · exact h
    exact { h with
      pushed_pos := by simp [h.pushed_pos, range_succ]
      pushed_ok := forall_mem_append.2
        ⟨h.pushed_ok, by simpa using hview frontier hfrontier item pos d.attempts⟩
      window_sorted := pairwise_append.2
        ⟨h.window_sorted, pairwise_singleton _ _, by simpa using h.window_pos⟩
      window_pos := forall_mem_append.2
        ⟨fun r hr => (h.window_pos r hr).trans (Nat.lt_succ_self _), by simp⟩
      window_item := forall_mem_append.2 ⟨h.window_item, forall_mem_singleton.2 hnext⟩
      window_last := by simp }
  · exact h

variable {r : DriverRow P α ν}

omit h in
/-- After an emit at frontier `f`, the newest live row is one built at `f`. -/
lemma emit_newest (h : DriverInv t ok finished shown (d.emit t view)) (hf : view.frontier = some f)
    (hr : (d.emit t view).window.getLast? = some r) :
    (d.emit t view).pushed.getLast? = some (r, f) := by
  obtain ⟨g, hg, hlatest⟩ := h.window_last r hr
  have hnext := h.window_item r (mem_of_getLast? hr)
  have hsame : (d.emit t view).nextItem = d.nextItem := by
    unfold TransactDriver.emit
    split <;> [split_ifs; skip] <;> rfl
  rw [hsame] at hnext
  have hemit : (d.emit t view).latestEmit = some (r.itemPosition, f) := by
    unfold TransactDriver.emit
    rw [hnext, hf]
    simp only
    split_ifs with hl
    · exact hl
    · rfl
  obtain ⟨-, rfl⟩ := Prod.mk.inj (mem_unique hlatest hemit)
  exact hg

/-! ## Releasing rows -/

omit h [LinearOrder P] in
lemma getLast?_filter_of_pos {l : List (DriverRow P α ν)} {q : DriverRow P α ν → Bool}
    (h : l.getLast? = some r) (hq : q r = true) : (l.filter q).getLast? = some r := by
  obtain ⟨l', rfl⟩ := getLast?_eq_some_iff.1 h
  simp [filter_append, hq]

/-- A release that does not reach the newest live row only reclaims older ones. -/
lemma keep {released : ℕ → Bool} {upTo : Option ℕ} (hlive : ∀ r, d.window.getLast? = some r →
      released r.position = false ∧ past upTo r.position = false) :
    DriverInv t ok finished shown (d.release released upTo) ∧
      (d.release released upTo).window.getLast? = d.window.getLast? ∧
      (d.release released upTo).attempts = d.attempts ∧
      (d.release released upTo).pushed = d.pushed := by
  have hlast : (d.window.filter fun row => !past upTo row.position).getLast? =
      d.window.getLast? := by
    cases hw : d.window.getLast? with
    | none =>
      rw [getLast?_eq_none_iff] at hw
      simp [hw]
    | some r => exact getLast?_filter_of_pos hw (by simp [(hlive r hw).2])
  rw [TransactDriver.release_older upTo fun r hr => (hlive r hr).1]
  refine ⟨{ h with
    window_sorted := h.window_sorted.filter _
    window_pos := fun r hr => h.window_pos r (mem_of_mem_filter hr)
    window_item := fun r hr => h.window_item r (mem_of_mem_filter hr)
    window_last := fun r hr => h.window_last r (hlast ▸ hr) }, hlast, rfl, rfl⟩

/-- The release of the newest live row finishes its item and empties the window. -/
lemma finish (released : ℕ → Bool) (upTo : Option ℕ)
    (hrow : d.window.getLast? = some row) (hreleased : released row.position = true)
    (hupTo : past upTo row.position = true) :
    DriverInv t ok (finished ++ [row.itemPosition]) shown (d.release released upTo) ∧
      (d.release released upTo).window = [] ∧
      (d.release released upTo).attempts = d.attempts := by
  have hnext := h.window_item row (mem_of_getLast? hrow)
  obtain ⟨hlive, pre, post, hsplit, hpre⟩ := h.nextItem_split hnext
  -- The cursor moves onto the item, which lies above it.
  have hcurrent : d.current.elim row.itemPosition (max · row.itemPosition) = row.itemPosition := by
    cases hc : d.current with
    | none => rfl
    | some c =>
      have : c < row.itemPosition := by simpa [hc] using hlive
      exact max_eq_right this.le
  have hsorted := itemsOf_sorted t.ascending
  rw [hsplit] at hsorted
  have hpre_lt : ∀ y ∈ pre, y.1 < row.itemPosition := fun y hy =>
    (pairwise_append.1 hsorted).2.2 y hy _ mem_cons_self
  have hpost_lt : ∀ y ∈ post, row.itemPosition < y.1 := fun y hy =>
    (pairwise_cons.1 (pairwise_append.1 hsorted).2.1).1 y hy
  have hcur_le : ∀ x, past d.current x = true → x ≤ row.itemPosition :=
    fun x hx => le_of_past hx hlive
  -- The drive with its cursor on the item and an empty window, before the source is released.
  have hmoved : DriverInv t ok (finished ++ [row.itemPosition]) shown
      { d with current := some row.itemPosition, window := [] } := by
    refine { h with
      released_past := fun x hx hr => by simpa using hcur_le x.1 (h.released_past x hx hr)
      resumed_past := fun q hq => by simpa using hcur_le q (h.resumed_past q hq)
      finished_eq := ?_
      window_sorted := List.Pairwise.nil, window_pos := by simp, window_item := by simp,
      window_last := by simp }
    have hresumed : past t.resumedAfter row.itemPosition = false := by
      by_contra hr
      exact absurd (h.resumed_past _ (by simpa using hr)) (by simp [hlive])
    have hpost_live : ∀ y ∈ post, past d.current y.1 = false := by
      intro y hy
      by_contra hp
      exact absurd (hpost_lt y hy) (not_lt.2 (hcur_le y.1 (by simpa using hp)))
    have hold : post.filter (fun x => !past t.resumedAfter x.1 && past d.current x.1) = [] :=
      filter_eq_nil_iff.2 fun y hy => by simp [hpost_live y hy]
    have hnew : post.filter (fun x => !past t.resumedAfter x.1 &&
        past (some row.itemPosition) x.1) = [] :=
      filter_eq_nil_iff.2 fun y hy => by simp [hpost_lt y hy]
    have hpres : pre.filter (fun x => !past t.resumedAfter x.1 && past d.current x.1) =
        pre.filter (fun x => !past t.resumedAfter x.1 && past (some row.itemPosition) x.1) :=
      filter_congr fun y hy => by simp [hpre y hy, (hpre_lt y hy).le]
    rw [h.finished_eq, hsplit, filter_append, filter_append, filter_cons,
      filter_cons, hold, hnew, hpres]
    simp [hlive, hresumed]
  rw [TransactDriver.release_newest h.window_sorted hrow hreleased hupTo, hcurrent]
  have hsame := TransactDriver.releaseSourceThrough_sameRows
    { d with current := some row.itemPosition, window := [] } (some row.itemPosition)
  refine ⟨hmoved.releaseSource _ fun q hq x _ hxq => ?_, hsame.window, hsame.attempts⟩
  cases hq
  simpa using hxq

end DriverInv

/-! ## The fan-out's slots -/

namespace SiteState

omit [LinearOrder P] in
/-- The highest row both slots have released is one of them, at or above every other. -/
lemma maxReleased_spec (s : SiteState κ ν P α) :
    (∀ m, s.maxReleased = some m → s.released m = true) ∧
      ∀ i, s.released i = true → past s.maxReleased i = true := by
  unfold maxReleased released
  cases s.writerThrough with
  | none => simp
  | some n =>
    simp only [bind_some, past_some]
    refine ⟨fun m hm => ?_, fun i hi => ?_⟩
    · have hmem := mem_of_find?_eq_some hm
      have hbody := find?_some hm
      simp only [mem_reverse, mem_range] at hmem
      simp [hbody, Nat.lt_succ_iff.1 hmem]
    · simp only [Bool.and_eq_true, decide_eq_true_eq] at hi
      have hmem : i ∈ (List.range (n + 1)).reverse := by simpa [Nat.lt_succ_iff] using hi.1
      obtain ⟨m, hm⟩ := isSome_iff_exists.1 (find?_isSome.2 ⟨i, hmem, hi.2⟩)
      rw [hm, past_some, decide_eq_true_eq]
      have hdesc := pairwise_reverse.2 (pairwise_lt_range (n := n + 1))
      exact (hdesc.eq_or_rel_of_find? hm hmem hi.2).elim le_of_eq Nat.le_of_lt

omit [LinearOrder P] in
/-- A row is above the highest released one if no row from it on is released. -/
lemma not_past_maxReleased {s : SiteState κ ν P α} (h : ∀ m, i ≤ m → s.released m = false) :
    s.released i = false ∧ past s.maxReleased i = false := by
  refine ⟨h i le_rfl, ?_⟩
  cases hm : s.maxReleased with
  | none => rfl
  | some m =>
    refine decide_eq_false fun hle => ?_
    exact absurd (s.maxReleased_spec.1 m hm) (by simp [h m hle])

end SiteState

/-- What a site keeps: its drive's invariant, and that the writer has released only rows emitted
before the newest live one. -/
structure SiteInv (t : TransactSite κ ν P α) (ok : DriverRow P α ν × ℕ → Prop)
    (finished : List P) (shown : List (P × Option α)) (s : SiteState κ ν P α) : Prop where
  driver : DriverInv t ok finished shown s.driver
  through_lt : ∀ n, s.writerThrough = some n → n < s.driver.attempts
  newest_live : ∀ r, s.driver.window.getLast? = some r → past s.writerThrough r.position = false

namespace SiteInv

lemma fresh (t : TransactSite κ ν P α) (ok : DriverRow P α ν × ℕ → Prop) :
    SiteInv t ok [] [] (SiteState.fresh t) where
  driver := DriverInv.fresh t ok
  through_lt := by simp [SiteState.fresh]
  newest_live := by simp [SiteState.fresh]

variable (h : SiteInv t ok finished shown s)
include h

lemma mono (hok : ∀ x, ok x → ok' x) : SiteInv t ok' finished shown s :=
  { h with driver := h.driver.mono hok }

/-- Handing the driver releases that do not reach its newest row keeps the invariant and that
row. -/
lemma driverRelease : SiteInv t ok finished shown s.driverRelease ∧
    s.driverRelease.driver.window.getLast? = s.driver.window.getLast? ∧
    s.driverRelease.driver.pushed = s.driver.pushed := by
  have hlive : ∀ r, s.driver.window.getLast? = some r →
      s.released r.position = false ∧ past s.maxReleased r.position = false := by
    refine fun r hr => SiteState.not_past_maxReleased fun m hle => ?_
    have hnot : past s.writerThrough m ≠ true := fun hpast =>
      absurd (past_mono hpast hle) (by simp [h.newest_live r hr])
    simp [SiteState.released, hnot]
  obtain ⟨hd, hlast, hatt, hpushed⟩ := h.driver.keep hlive
  refine ⟨⟨hd, fun n hn => ?_, fun r hr => ?_⟩, hlast, hpushed⟩
  · exact (h.through_lt n hn).trans_eq hatt.symm
  · exact h.newest_live r (hlast ▸ hr)

/-- A pull of the driver keeps the invariant, if the source goes on delivering in order; at a
decided frontier, the newest live row is then one built there. -/
lemma driverGet (hview : Describes t ok view) {news : Option (SourceTile P α)}
    {rest : List (SourceTile P α)} (hreads : t.InOrder shown (news.toList ++ rest)) :
    ∃ shown', SiteInv t ok finished shown' (s.driverGet t view news) ∧ t.InOrder shown' rest ∧
      ∀ f, view.frontier = some f → ∀ r, (s.driverGet t view news).driver.window.getLast? = some r →
        (s.driverGet t view news).driver.pushed.getLast? = some (r, f) := by
  obtain ⟨shown', hread, hrest⟩ : ∃ shown',
      DriverInv t ok finished shown' (s.driver.readNews news) ∧ t.InOrder shown' rest := by
    cases news with
    | none => exact ⟨shown, h.driver, hreads⟩
    | some tile =>
      obtain ⟨hshown, hrest⟩ := pairwise_cons.1 hreads
      exact ⟨tile.rows, h.driver.readNews (hshown _ (by simp))
        ((pairwise_cons.1 hrest).1 _ (by simp)), hrest⟩
  have hpast : DriverInv t ok finished shown' (s.driver.readNews news).readPast :=
    hread.releaseSource _ fun q hq x hx hxq => hread.readThrough_past hq hx hxq
  have hemit := hpast.emit hview
  have hframe := TransactDriver.emit_frame t view (s.driver.readNews news).readPast
  have hwin : (s.driver.readNews news).readPast.window = s.driver.window ∧
      (s.driver.readNews news).readPast.attempts = s.driver.attempts := by
    cases news <;> exact ⟨TransactDriver.readPast_window _, TransactDriver.readPast_attempts _⟩
  refine ⟨shown', ⟨hemit, fun n hn => ?_, fun r hr => ?_⟩, hrest,
    fun f hf r hr => hemit.emit_newest hf hr⟩
  · exact (hwin.2 ▸ h.through_lt n hn).trans_le hframe.1
  rcases hframe.2 with hsame | ⟨row, hrow, hpos⟩
  · exact h.newest_live r (by rw [← hwin.1, ← hsame]; exact hr)
  -- A fresh row takes a position the writer has not seen.
  have hr' : ((s.driver.readNews news).readPast.emit t view).window.getLast? = some r := hr
  obtain rfl : row = r := by simpa [hrow] using hr'
  change past s.writerThrough row.position = false
  rw [hpos, hwin.2]
  cases hw : s.writerThrough with
  | none => rfl
  | some n => simpa using h.through_lt n hw

lemma bodyRelease (rows : ℕ → Bool) : SiteInv t ok finished shown (s.bodyRelease rows) ∧
      (s.bodyRelease rows).driver.window.getLast? = s.driver.window.getLast? ∧
      (s.bodyRelease rows).driver.pushed = s.driver.pushed :=
  driverRelease (s := { s with bodyReleased := fun row => s.bodyReleased row || rows row })
    { h with }

lemma visible_last : s.visible.getLast? = s.driver.window.getLast? := by
  cases hw : s.driver.window.getLast? with
  | none =>
    rw [getLast?_eq_none_iff] at hw
    simp [SiteState.visible, hw]
  | some r => exact DriverInv.getLast?_filter_of_pos hw (by simp [h.newest_live r hw])

/-- Releasing what the newest row supersedes keeps the invariant and that row. -/
lemma supersede (hrow : s.driver.window.getLast? = some row) :
    SiteInv t ok finished shown (s.supersede row.position) ∧
      (s.supersede row.position).driver.window.getLast? = some row ∧
      (s.supersede row.position).driver.pushed = s.driver.pushed := by
  unfold SiteState.supersede
  cases hold : (s.visible.filter (·.position < row.position)).getLast? with
  | none => exact ⟨h, hrow, rfl⟩
  | some old =>
    obtain ⟨hvis, hlt⟩ := mem_filter.1 (mem_of_getLast? hold)
    have hlt : old.position < row.position := by simpa using hlt
    have hwin := mem_of_mem_filter hvis
    have hthrough : s.writerThrough.elim old.position (max old.position) < row.position := by
      have hnew := h.newest_live row hrow
      cases hw : s.writerThrough with
      | none => exact hlt
      | some n =>
        have : n < row.position := by simpa [hw] using hnew
        exact max_lt hlt this
    have hinv : SiteInv t ok finished shown { s with
          writerThrough := some (s.writerThrough.elim old.position (max old.position)) } := by
      refine ⟨h.driver, fun n hn => ?_, fun r hr => ?_⟩
      · cases hn
        exact hthrough.trans (h.driver.window_pos row (mem_of_getLast? hrow))
      · obtain rfl := mem_unique hr hrow
        simpa using hthrough
    obtain ⟨hinv', hlast, hpushed⟩ := hinv.driverRelease
    exact ⟨hinv', hlast.trans hrow, hpushed⟩

/-- **The ack of the newest row finishes its item.** -/
lemma ackThrough (hrow : s.driver.window.getLast? = some row) (extra : ℕ → Bool) :
    SiteInv t ok (finished ++ [row.itemPosition]) shown (s.ackThrough row.position extra) := by
  have hwin := mem_of_getLast? hrow
  have hthrough : s.writerThrough.elim row.position (max row.position) = row.position := by
    have hnew := h.newest_live row hrow
    cases hw : s.writerThrough with
    | none => rfl
    | some n =>
      have : n < row.position := by simpa [hw] using hnew
      exact max_eq_left this.le
  -- The writer's slot first.
  set s₁ : SiteState κ ν P α := { s with writerThrough := some row.position } with hs₁
  have hack : s.ackThrough row.position extra =
      s₁.driverRelease.bodyRelease fun r => r ≤ row.position || extra r := by
    simp [SiteState.ackThrough, SiteState.writerReleaseThrough, hthrough, hs₁]
  have hlt : row.position < s.driver.attempts := h.driver.window_pos row hwin
  rw [hack]
  by_cases hbody : s.bodyReleased row.position = true
  · -- The body had released the row: this release finishes the item, the body's finds nothing.
    have hrel : s₁.released row.position = true := by simp [SiteState.released, hs₁, hbody]
    obtain ⟨hd, hempty, hatt⟩ := h.driver.finish s₁.released s₁.maxReleased hrow hrel
      (s₁.maxReleased_spec.2 _ hrel)
    have hinv : SiteInv t ok (finished ++ [row.itemPosition]) shown s₁.driverRelease := by
      refine ⟨hd, fun n hn => ?_, fun r hr => ?_⟩
      · cases hn
        exact hlt.trans_eq hatt.symm
      · have hr' : (s.driver.release s₁.released s₁.maxReleased).window.getLast? = some r := hr
        simp [hempty] at hr'
    exact (hinv.bodyRelease _).1
  · -- The body had not: the item finishes when it releases the row with its decision.
    have hlive : ∀ r, s.driver.window.getLast? = some r →
        s₁.released r.position = false ∧ past s₁.maxReleased r.position = false := by
      intro r hr
      obtain rfl := mem_unique hr hrow
      refine SiteState.not_past_maxReleased fun m hle => ?_
      rcases hle.eq_or_lt with rfl | hlt
      · simp [SiteState.released, hs₁, hbody]
      · simp [SiteState.released, hs₁, hlt]
    obtain ⟨hd, hlast, hatt, -⟩ := h.driver.keep hlive
    set s₂ : SiteState κ ν P α := { s₁.driverRelease with
      bodyReleased := fun r => s₁.driverRelease.bodyReleased r || (r ≤ row.position || extra r) }
    have hrel : s₂.released row.position = true := by
      simp [SiteState.released, s₂, hs₁, SiteState.driverRelease]
    obtain ⟨hd', hempty, hatt'⟩ := hd.finish s₂.released s₂.maxReleased
      (hlast.trans hrow) hrel (s₂.maxReleased_spec.2 _ hrel)
    refine ⟨hd', fun n hn => ?_, fun r hr => ?_⟩
    · cases hn
      exact (hlt.trans_eq hatt.symm).trans_eq hatt'.symm
    · have hr' : ((s.driver.release s₁.released s₁.maxReleased).release s₂.released
        s₂.maxReleased).window.getLast? = some r := hr
      simp [hempty] at hr'

/-! ## One pull of the writer -/

lemma setWriter (w : TransactWriter κ ν) : SiteInv t ok finished shown { s with writer := w } :=
  { h with }

lemma bodyGets (hview : Describes t ok view) (gets : List (Option (SourceTile P α) × (ℕ → Bool)))
    {rest : List (SourceTile P α)}
    (hreads : t.InOrder shown (gets.filterMap Prod.fst ++ rest)) :
    ∃ shown', SiteInv t ok finished shown'
      (gets.foldl (fun s g => (s.driverGet t view g.1).bodyRelease g.2) s) ∧
      t.InOrder shown' rest := by
  induction gets generalizing s shown with
  | nil => exact ⟨shown, h, hreads⟩
  | cons g gets ih =>
    have hsplit : (g :: gets).filterMap Prod.fst ++ rest =
        g.1.toList ++ (gets.filterMap Prod.fst ++ rest) := by cases hg : g.1 <;> simp [hg]
    obtain ⟨shown', hget, hrest, -⟩ := h.driverGet hview (hsplit ▸ hreads)
    exact ih (hget.bodyRelease g.2).1 hrest

end SiteInv

/-- A row the body may be asked about: a described attempt, at frontier `f`, at an item of the
source. -/
structure RowAt (t : TransactSite κ ν P α) (ok : DriverRow P α ν × ℕ → Prop)
    (view : StoreView κ ν) (f : ℕ) (row : DriverRow P α ν) : Prop where
  frontier : view.frontier = some f
  described : ok (row, f)
  item : (row.itemPosition, row.item) ∈ itemsOf t.rows

/-- What one pull of site `k`'s writer does. -/
inductive Pulled (k : ℕ) (t : TransactSite κ ν P α) (ok : DriverRow P α ν × ℕ → Prop)
    (finished : List P) (shown : List (P × Option α)) (view : StoreView κ ν)
    (w : TransactWriter κ ν) : SiteState κ ν P α × List (Finish κ ν P α) → Prop where
  /-- Nothing to decide, or nothing ready. -/
  | idle (s' : SiteState κ ν P α) (inv : SiteInv t ok finished shown s')
      (emitted : s'.writer.emitted = w.emitted)
      (base : s'.writer.committedBase = w.committedBase) :
      Pulled k t ok finished shown view w (s', [])
  /-- The item is finished on the spot: denied, or granted with nothing to write. -/
  | finish (s' : SiteState κ ν P α) (row : DriverRow P α ν) (f : ℕ)
      (inv : SiteInv t ok (finished ++ [row.itemPosition]) shown s')
      (at_row : RowAt t ok view f row)
      (denied : (t.body row.snapshot row.item).commit = false ∨
        t.writeSet (t.body row.snapshot row.item) = [])
      (emitted : s'.writer.emitted = [])
      (base : s'.writer.committedBase = w.committedBase + w.emitted.length) :
      Pulled k t ok finished shown view w (s', [⟨k, row.itemPosition, row.item, f, none⟩])
  /-- The newest row's grant is proposed. -/
  | propose (s' : SiteState κ ν P α) (row : DriverRow P α ν) (f : ℕ)
      (inv : SiteInv t ok finished shown s') (at_row : RowAt t ok view f row)
      (granted : (t.body row.snapshot row.item).commit = true)
      (writes : t.writeSet (t.body row.snapshot row.item) ≠ [])
      (newest : s'.driver.window.getLast? = some row)
      (emitted : s'.writer.emitted = [⟨f, t.reads view.current,
        t.writeSet (t.body row.snapshot row.item), row.position⟩])
      (base : s'.writer.committedBase = w.committedBase + w.emitted.length) :
      Pulled k t ok finished shown view w (s', [])

namespace SiteState

variable (s : SiteState κ ν P α)

@[simp] lemma driverRelease_writer : s.driverRelease.writer = s.writer := rfl

@[simp] lemma bodyRelease_writer (rows : ℕ → Bool) : (s.bodyRelease rows).writer = s.writer := rfl

@[simp] lemma ackThrough_writer (row : ℕ) (extra : ℕ → Bool) :
    (s.ackThrough row extra).writer = s.writer := rfl

@[simp] lemma driverGet_writer (t : TransactSite κ ν P α) (view : StoreView κ ν)
    (s : SiteState κ ν P α) (news : Option (SourceTile P α)) :
    (s.driverGet t view news).writer = s.writer := rfl

@[simp] lemma supersede_writer (row : ℕ) : (s.supersede row).writer = s.writer := by
  unfold supersede
  split <;> rfl

@[simp] lemma bodyGets_writer (t : TransactSite κ ν P α) (view : StoreView κ ν)
    (gets : List (Option (SourceTile P α) × (ℕ → Bool))) (s : SiteState κ ν P α) :
    (gets.foldl (fun s g => (s.driverGet t view g.1).bodyRelease g.2) s).writer = s.writer := by
  induction gets generalizing s with
  | nil => rfl
  | cons g gets ih => simp [ih]

end SiteState

namespace SiteInv

variable (h : SiteInv t ok finished shown s)
include h

/-- Acting on the decision at the newest row finishes its item or proposes its write set. -/
lemma decideRow (k : ℕ) (hrow : s.driver.window.getLast? = some row)
    (hat : RowAt t ok view f row) (extra : ℕ → Bool) :
    Pulled k t ok finished shown view s.writer (s.decideRow k t view extra f row) := by
  unfold SiteState.decideRow
  dsimp only
  split_ifs with hcond
  · obtain ⟨hcommit, hwrites⟩ : (t.body row.snapshot row.item).commit = true ∧
        t.writeSet (t.body row.snapshot row.item) ≠ [] := by simpa using hcond
    exact .propose _ row f (h.setWriter _) hat hcommit hwrites hrow rfl rfl
  · have hdenied : (t.body row.snapshot row.item).commit = false ∨
        t.writeSet (t.body row.snapshot row.item) = [] := by simpa [or_iff_not_imp_left] using hcond
    have hset := h.setWriter { s.writer.dropSuperseded with lastDecidedPos := some row.position }
    exact .finish _ row f (hset.ackThrough hrow extra) hat hdenied rfl rfl

/-- The decision of the newest row, which was built at the frontier read. -/
lemma decideNewest (k : ℕ)
    (hnewest : ∀ f, view.frontier = some f → ∀ r, s.driver.window.getLast? = some r →
      s.driver.pushed.getLast? = some (r, f)) (pull : SitePull P α) :
    Pulled k t ok finished shown view s.writer (s.decideNewest k t view pull) := by
  unfold SiteState.decideNewest
  rw [h.visible_last]
  cases hlast : s.driver.window.getLast? with
  | none => exact .idle _ h rfl rfl
  | some row =>
    obtain ⟨hsup, hlast', -⟩ := h.supersede hlast
    have hwriter := s.supersede_writer row.position
    simp only
    cases hf : view.frontier with
    | none => exact .idle _ hsup (by rw [hwriter]) (by rw [hwriter])
    | some f =>
      simp only
      split_ifs with hdecide
      · have hat : RowAt t ok view f row := by
          refine ⟨hf, h.driver.pushed_ok _ (mem_of_getLast? (hnewest f hf row hlast)), ?_⟩
          obtain ⟨-, pre, post, hsplit, -⟩ :=
            h.driver.nextItem_split (h.driver.window_item row (mem_of_getLast? hlast))
          rw [hsplit]
          simp
        have hdecided := hsup.decideRow k hlast' hat pull.ackExtra
        rwa [hwriter] at hdecided
      · exact .idle _ hsup (by rw [hwriter]) (by rw [hwriter])

/-- One pull of a site's writer, from a site that keeps its invariant over a source that goes on
delivering in order. -/
lemma writerGet (k : ℕ) (hview : Describes t ok view) {pull : SitePull P α}
    {rest : List (SourceTile P α)} (hreads : t.InOrder shown (pull.reads ++ rest)) :
    ∃ w shown', w.emitted = s.writer.emitted ∧ w.committedBase = s.writer.committedBase ∧
      Pulled k t ok finished shown' view w (s.writerGet k t view pull) ∧ t.InOrder shown' rest := by
  rw [SitePull.reads, append_assoc] at hreads
  obtain ⟨_, hbody, hreads'⟩ := h.bodyGets hview pull.bodyGets hreads
  obtain ⟨shown', hget, hrest, hnewest⟩ := hbody.driverGet hview hreads'
  have hdecided := decideNewest (s := s.pullInputs t view pull) (hget.setWriter _) k hnewest pull
  refine ⟨_, shown', ?_, ?_, hdecided, hrest⟩ <;> simp [SiteState.pullInputs]

/-- The release of a committed proposal finishes the item it was decided for. -/
lemma writerRelease (hrow : s.driver.window.getLast? = some row)
    {p : InFlightProposal κ ν} (hemitted : s.writer.emitted = [p])
    (hattempt : p.attempt = row.position) (extra : ℕ → Bool) :
    SiteInv t ok (finished ++ [row.itemPosition]) shown
        (s.writerRelease s.writer.committedBase extra) ∧
      (s.writerRelease s.writer.committedBase extra).writer.emitted = [] ∧
      (s.writerRelease s.writer.committedBase extra).writer.committedBase =
        s.writer.committedBase + 1 := by
  have hack := h.ackThrough hrow extra
  have heq : s.writerRelease s.writer.committedBase extra = { s.ackThrough row.position extra with
          writer := { s.writer with
            emitted := []
            committedBase := s.writer.committedBase + 1 } } := by
    simp [SiteState.writerRelease, hemitted, hattempt]
  rw [heq]
  exact ⟨hack.setWriter _, rfl, rfl⟩

end SiteInv

end Cambra
