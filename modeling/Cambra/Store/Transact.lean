import Cambra.Store.Commit

/-!
# Transaction sites: the driver, the body and the writer

One writer of the transactional store is a `TransactSite`: a source of items, a pure decision
body, and the keys it reads and writes.  Three operators run it.  The `TransactDriver` turns the
lowest unfinished item and the store's frontier into an attempt row; the body decides the row;
the `TransactWriter` proposes what the body granted, or finishes the item on the spot where it
was denied or writes nothing.  The driver sits behind a fan-out with a slot for the body and one
for the writer, so a row is finished once both have released it.

`SiteState` is the state of the three with the fan-out's two slots.  Its operations are the
source's, one function each: `driverGet`, `driverRelease`, `ackThrough`, `writerGet`,
`writerRelease`.  What the environment may choose is in their arguments: what each read of the
source shows (`SourceTile`), how often the body pulls its slot and what it releases of it, and
whether the body's decision is ready (`SitePull`).  Nothing is asked of a source but that the rows
it shows ascend; a source that delivers in order is described by `TransactSite.InOrder`, and one
that keeps what it has shown by `Appending`.

The field `pushed` of the driver is history: every row ever emitted with the frontier it was
built at.  Nothing reads it but the statements.
-/

namespace Cambra

/-! ## A site -/

/-- A body's decision: whether it commits, the values it writes (carry keys, then taps) and which
taps fired. -/
structure Decision (ν : Type*) where
  commit : Bool
  writes : List ν
  tapFired : List Bool

/-- A writer site of the store. -/
structure TransactSite (κ ν P α : Type*) [LinearOrder P] where
  /-- The source's positions with their items; a filtered row is held without one. -/
  rows : List (P × Option α)
  /-- Source positions ascend. -/
  ascending : rows.Pairwise (fun a b => a.1 < b.1)
  /-- The last position a predecessor drive finished. -/
  resumedAfter : Option P
  /-- The keys the body reads a snapshot of, in parameter order. -/
  readKeys : List κ
  /-- The keys the body writes, carry keys then taps. -/
  writeKeys : List κ
  /-- How many of the write keys are taps. -/
  taps : ℕ
  /-- The pure decision body over a snapshot and an item. -/
  body : List ν → α → Decision ν
  /-- The item as a value, which stands in for a read key that has none. -/
  standIn : α → ν

namespace TransactSite

variable {κ ν P α : Type*} [LinearOrder P] (t : TransactSite κ ν P α)

/-- The snapshot a row carries: each read key's value, or the item where it has none. -/
def snapIn (olds : κ → Option ν) (item : α) : List ν :=
  t.readKeys.map fun key => (olds key).getD (t.standIn item)

/-- The read set of a proposal, which omits the keys with no value. -/
def reads (olds : κ → Option ν) : List (κ × ν) :=
  t.readKeys.filterMap fun key => (olds key).map fun v => (key, v)

/-- The write set of a granted decision: every carry write, and the taps that fired. -/
def writeSet (d : Decision ν) : List (κ × ν) :=
  let nCarry := t.writeKeys.length - t.taps
  ((t.writeKeys.zip d.writes).zipIdx.filter fun x =>
    x.2 < nCarry || d.tapFired.getD (x.2 - nCarry) false).map Prod.fst

end TransactSite

/-- The items among source rows, filtered rows left out. -/
def itemsOf {P α : Type*} (rows : List (P × Option α)) : List (P × α) :=
  rows.filterMap fun r => r.2.map fun a => (r.1, a)

/-- Whether a position is at or below a cursor. -/
def past {P : Type*} [LinearOrder P] (cursor : Option P) (p : P) : Bool := cursor.any (p ≤ ·)

/-- The store as a slot of its cyclic fan-out reads it: the decided frontier, and each key's
value there (`store_current`). -/
structure StoreView (κ ν : Type*) where
  frontier : Option ℕ
  current : κ → Option ν

/-- The view an engine's rendered tile gives. -/
def CommitEngine.view {κ ν : Type*} (e : CommitEngine κ ν ℕ) : StoreView κ ν where
  frontier := e.decided
  current key := e.decided.bind fun f => e.readAsOf f key

/-! ## The driver -/

/-- What a read of the source shows. -/
structure SourceTile (P α : Type*) [LinearOrder P] where
  /-- Every row held, in the order of the positions; a filtered row has no item. -/
  rows : List (P × Option α)
  ascending : rows.Pairwise (fun a b => a.1 < b.1)
  /-- Whether it says that it will add nothing more. -/
  terminal : Bool
  /-- Whether it calls everything at or below a position complete. -/
  complete : P → Bool

/-- A source that has shown the rows `shown` and then answers `reads` delivers in order: what a read
shows begins what every later one shows, and the source's rows.  (Rows the drive has released may
also be gone from a tile; the drive forgets them, so that reads the same.) -/
def TransactSite.InOrder {κ ν P α : Type*} [LinearOrder P] (t : TransactSite κ ν P α)
    (shown : List (P × Option α)) (reads : List (SourceTile P α)) : Prop :=
  (shown :: (reads.map SourceTile.rows ++ [t.rows])).Pairwise (· <+: ·)

/-- A source keeps what it has shown, and once it calls itself complete it adds nothing. -/
def Appending {P α : Type*} [LinearOrder P] (reads : List (SourceTile P α)) : Prop :=
  reads.Pairwise fun a b => a.rows ⊆ b.rows ∧ (a.terminal = true → b.rows ⊆ a.rows)

/-- What the driver last read off its source. -/
structure DecodedSource (P α : Type*) where
  /-- The delivered items, ascending. -/
  items : List (P × α)
  /-- Every position held, filtered rows included, ascending. -/
  held : List P
  terminal : Bool

namespace DecodedSource

variable {P α : Type*} [LinearOrder P] (src : DecodedSource P α)

/-- The smallest delivered position above `after`, with its item. -/
def nextDelivered (after : Option P) : Option (P × α) := src.items.find? fun x => !past after x.1

/-- Forget every position at or below `through`. -/
def forgetThrough (through : P) : DecodedSource P α := { src with
      items := src.items.filter (through < ·.1)
      held := src.held.filter (through < ·) }

/-- The highest held position below `next` that the source calls complete along with everything
before it. -/
def readThrough (next : Option P) (complete : P → Bool) : Option P :=
  (src.held.filter fun p => next.all (p < ·)).reverse.find? complete

end DecodedSource

/-- A row of the driver's window: an attempt at an item over a snapshot. -/
structure DriverRow (P α ν : Type*) where
  snapshot : List ν
  item : α
  itemPosition : P
  /-- The attempt counter's value for this row. -/
  position : ℕ

/-- The driver's state. -/
structure TransactDriver (P α ν : Type*) where
  /-- The position of the highest finished item. -/
  current : Option P
  /-- The rows emitted and not yet reclaimed, ascending. -/
  window : List (DriverRow P α ν)
  /-- How many rows were ever emitted. -/
  attempts : ℕ
  /-- Item position and frontier of the latest emit. -/
  latestEmit : Option (P × ℕ)
  source : DecodedSource P α
  sourceComplete : P → Bool
  /-- The source prefix this driver has released. -/
  sourceReleasedThrough : Option P
  /-- Every row ever emitted, with the frontier it was built at. -/
  pushed : List (DriverRow P α ν × ℕ)

namespace TransactDriver

variable {κ ν P α : Type*} [LinearOrder P] (d : TransactDriver P α ν)

/-- Release the source through a position, unless an earlier release already reaches it. -/
def releaseSourceThrough : Option P → TransactDriver P α ν
  | none => d
  | some through =>
    if past d.sourceReleasedThrough through then d
    else { d with
            source := d.source.forgetThrough through
            sourceReleasedThrough := some through }

/-- Read the source, if it has news; a read can still show what the drive has released. -/
def readNews : Option (SourceTile P α) → TransactDriver P α ν
  | none => d
  | some tile =>
    let src : DecodedSource P α :=
      { items := itemsOf tile.rows
        held := tile.rows.map Prod.fst
        terminal := tile.terminal }
    { d with
        source := match d.sourceReleasedThrough with
          | some released => src.forgetThrough released
          | none => src
        sourceComplete := tile.complete }

/-- The item the drive attempts next: the lowest delivered one above the cursor. -/
def nextItem : Option (P × α) := d.source.nextDelivered d.current

/-- Release the rows read past: the filtered ones below the next item. -/
def readPast : TransactDriver P α ν :=
  d.releaseSourceThrough (d.source.readThrough (d.nextItem.map Prod.fst) d.sourceComplete)

/-- Emit a row for the next item at the store's frontier, once per pair of the two. -/
def emit (t : TransactSite κ ν P α) (view : StoreView κ ν) (d : TransactDriver P α ν) :
    TransactDriver P α ν :=
  match d.nextItem, view.frontier with
  | some (pos, item), some frontier =>
    if d.latestEmit = some (pos, frontier) then d
    else
      let row : DriverRow P α ν := ⟨t.snapIn view.current item, item, pos, d.attempts⟩
      { d with
          window := d.window ++ [row]
          attempts := d.attempts + 1
          latestEmit := some (pos, frontier)
          pushed := d.pushed ++ [(row, frontier)] }
  | _, _ => d

/-- One pull: read the source if it has news, release what is read past, and emit a row where one
is due. -/
def get (t : TransactSite κ ν P α) (view : StoreView κ ν) (news : Option (SourceTile P α))
    (d : TransactDriver P α ν) : TransactDriver P α ν :=
  (d.readNews news).readPast.emit t view

/-- Whether every item has finished and no more can arrive. -/
def isDone : Bool := d.source.terminal && d.nextItem.isNone

/-- The item at `pos` has finished: advance the cursor and release the source through it. -/
def finishItem (pos : P) : TransactDriver P α ν :=
  { d with current := some (d.current.elim pos (max · pos)) }.releaseSourceThrough (some pos)

/-- Drop the rows at or below `upTo`. -/
def acknowledge (upTo : Option ℕ) : TransactDriver P α ν :=
  { d with window := d.window.filter fun row => !past upTo row.position }

/-- Act on a release of the rows `released`, of which `upTo` is the highest.  Only the newest
row's release is the item's finish. -/
def release (released : ℕ → Bool) (upTo : Option ℕ) : TransactDriver P α ν :=
  match d.window.getLast? with
  | some row =>
    if released row.position then (d.finishItem row.itemPosition).acknowledge upTo
    else d.acknowledge upTo
  | none => d.acknowledge upTo

end TransactDriver

/-! ## The writer and the site -/

/-- A proposal awaiting the store's verdict. -/
structure InFlightProposal (κ ν : Type*) where
  snapshot : ℕ
  reads : List (κ × ν)
  writes : List (κ × ν)
  /-- The driver row it was decided from. -/
  attempt : ℕ

/-- The writer's state. -/
structure TransactWriter (κ ν : Type*) where
  /-- The driver row whose decision this writer has acted on. -/
  lastDecidedPos : Option ℕ
  driverTerminal : Bool
  /-- The absolute position of the first proposal in `emitted`. -/
  committedBase : ℕ
  /-- Proposals not yet released. -/
  emitted : List (InFlightProposal κ ν)

namespace TransactWriter

variable {κ ν : Type*}

/-- Drop the proposals that deciding a newer row supersedes. -/
def dropSuperseded (w : TransactWriter κ ν) : TransactWriter κ ν := { w with
      committedBase := w.committedBase + w.emitted.length
      emitted := [] }

/-- The proposal stream: the live window at its absolute positions. -/
def render (w : TransactWriter κ ν) : ProposalTile κ ν where
  rows := w.emitted.zipIdx.map fun x =>
    (w.committedBase + x.2, ⟨x.1.snapshot, x.1.reads, x.1.writes⟩)
  terminal := w.driverTerminal && w.emitted.isEmpty

end TransactWriter

/-- A site's operators with the two slots of the driver's fan-out. -/
structure SiteState (κ ν P α : Type*) where
  driver : TransactDriver P α ν
  writer : TransactWriter κ ν
  /-- The rows the body has released. -/
  bodyReleased : ℕ → Bool
  /-- The prefix of rows the writer has released. -/
  writerThrough : Option ℕ

/-- What the environment contributes to one pull of a site's writer. -/
structure SitePull (P α : Type*) [LinearOrder P] where
  /-- The body's pulls of its driver slot, each with what the source shows, if it has news, and the
  rows the body then releases. -/
  bodyGets : List (Option (SourceTile P α) × (ℕ → Bool))
  /-- What the source shows on the writer's own pull of the driver, if it has news. -/
  news : Option (SourceTile P α)
  /-- Whether the body's decision at the newest row is ready. -/
  ready : Bool
  /-- What the body releases beyond the rows acked, when its decisions are released. -/
  ackExtra : ℕ → Bool

/-- What the source shows in the course of a pull, in order. -/
def SitePull.reads {P α : Type*} [LinearOrder P] (pull : SitePull P α) : List (SourceTile P α) :=
  pull.bodyGets.filterMap Prod.fst ++ pull.news.toList

namespace SiteState

variable {κ ν P α : Type*} [LinearOrder P]

/-- A site as it is subscribed. -/
def fresh (t : TransactSite κ ν P α) : SiteState κ ν P α where
  driver :=
    { current := t.resumedAfter
      window := []
      attempts := 0
      latestEmit := none
      source := ⟨[], [], false⟩
      sourceComplete := fun _ => false
      sourceReleasedThrough := t.resumedAfter
      pushed := [] }
  writer := ⟨none, false, 0, []⟩
  bodyReleased _ := false
  writerThrough := none

variable (s : SiteState κ ν P α)

/-- The rows both slots have released. -/
def released (row : ℕ) : Bool := past s.writerThrough row && s.bodyReleased row

/-- The highest row both slots have released. -/
def maxReleased : Option ℕ :=
  s.writerThrough.bind fun n => (List.range (n + 1)).reverse.find? s.bodyReleased

/-- Hand the driver what its two slots have released. -/
def driverRelease : SiteState κ ν P α :=
  { s with driver := s.driver.release s.released s.maxReleased }

/-- The body releases rows of its slot. -/
def bodyRelease (rows : ℕ → Bool) : SiteState κ ν P α :=
  { s with bodyReleased := fun row => s.bodyReleased row || rows row }.driverRelease

/-- The writer releases its slot through `row`. -/
def writerReleaseThrough (row : ℕ) : SiteState κ ν P α :=
  { s with writerThrough := some (s.writerThrough.elim row (max row)) }.driverRelease

/-- One pull of the driver. -/
def driverGet (t : TransactSite κ ν P α) (view : StoreView κ ν) (s : SiteState κ ν P α)
    (news : Option (SourceTile P α)) : SiteState κ ν P α :=
  { s with driver := s.driver.get t view news }

/-- Ack every attempt at or below `row`: the writer's slot first, then the body's decisions, with
which the body releases its rows at the latest. -/
def ackThrough (row : ℕ) (extra : ℕ → Bool) : SiteState κ ν P α :=
  (s.writerReleaseThrough row).bodyRelease fun r => r ≤ row || extra r

/-- The driver's rows on the writer's slot, ascending. -/
def visible : List (DriverRow P α ν) :=
  s.driver.window.filter fun row => !past s.writerThrough row.position

/-- Release, on the writer's slot, the rows that the row at `newest` supersedes. -/
def supersede (newest : ℕ) : SiteState κ ν P α :=
  match (s.visible.filter (·.position < newest)).getLast? with
  | some row => s.writerReleaseThrough row.position
  | none => s

end SiteState

/-- What becomes of an item: a commit at a tick, or a finish without one. -/
structure Finish (κ ν P α : Type*) where
  site : ℕ
  itemPosition : P
  item : α
  /-- The decided frontier the body's decision was taken at. -/
  snapshot : ℕ
  /-- The tick and write set of a commit; nothing for a denied or read-only item. -/
  commit : Option (ℕ × List (κ × ν))

namespace SiteState

variable {κ ν P α : Type*} [LinearOrder P]

/-- Act on the body's decision at the newest row, at store frontier `frontier`. -/
def decideRow (k : ℕ) (t : TransactSite κ ν P α) (view : StoreView κ ν) (extra : ℕ → Bool)
    (frontier : ℕ) (row : DriverRow P α ν) (s : SiteState κ ν P α) :
    SiteState κ ν P α × List (Finish κ ν P α) :=
  let d := t.body row.snapshot row.item
  let w := { s.writer.dropSuperseded with lastDecidedPos := some row.position }
  if d.commit && !(t.writeSet d).isEmpty then
    -- A proposal: the row stays live until the commit acks it.
    ({ s with writer := { w with
        emitted := w.emitted ++ [⟨frontier, t.reads view.current, t.writeSet d, row.position⟩] } },
      [])
  else
    -- A deny, or a grant that writes nothing: a local decision that finishes the item.
    ({ s with writer := w }.ackThrough row.position extra,
      [⟨k, row.itemPosition, row.item, frontier, none⟩])

/-- The writer's reads of its inputs: the body's decisions, which pull the driver on the way, then
the driver itself. -/
def pullInputs (t : TransactSite κ ν P α) (view : StoreView κ ν) (pull : SitePull P α)
    (s : SiteState κ ν P α) : SiteState κ ν P α :=
  let s := (pull.bodyGets.foldl (fun s g => (s.driverGet t view g.1).bodyRelease g.2) s).driverGet
    t view pull.news
  { s with writer := { s.writer with driverTerminal := s.driver.isDone } }

/-- Decide the newest row, once, where the store is decided and the body's decision is ready. -/
def decideNewest (k : ℕ) (t : TransactSite κ ν P α) (view : StoreView κ ν) (pull : SitePull P α)
    (s : SiteState κ ν P α) : SiteState κ ν P α × List (Finish κ ν P α) :=
  match s.visible.getLast? with
  | none => (s, [])
  | some row =>
    let s := s.supersede row.position
    match view.frontier with
    | none => (s, [])
    | some frontier =>
      if some row.position ≠ s.writer.lastDecidedPos ∧ pull.ready then
        s.decideRow k t view pull.ackExtra frontier row
      else (s, [])

/-- One pull of the writer, with the finish it makes on its own, if any. -/
def writerGet (k : ℕ) (t : TransactSite κ ν P α) (view : StoreView κ ν) (pull : SitePull P α)
    (s : SiteState κ ν P α) : SiteState κ ν P α × List (Finish κ ν P α) :=
  (s.pullInputs t view pull).decideNewest k t view pull

/-- The store releases the proposals at or below `step`: ack the rows they were decided from and
drop them from the window. -/
def writerRelease (s : SiteState κ ν P α) (step : ℕ) (extra : ℕ → Bool) : SiteState κ ν P α :=
  let indexed := s.writer.emitted.zipIdx
  let isReleased := fun x : InFlightProposal κ ν × ℕ => decide (s.writer.committedBase + x.2 ≤ step)
  let acked := (indexed.filter isReleased).map (·.1.attempt)
  let drop := (indexed.takeWhile isReleased).length
  let s := match acked.max? with
    | some row => s.ackThrough row extra
    | none => s
  { s with writer := { s.writer with
      emitted := s.writer.emitted.drop drop
      committedBase := s.writer.committedBase + drop } }

end SiteState

end Cambra
