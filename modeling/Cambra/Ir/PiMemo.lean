import Cambra.Ir.PiWalk
import Cambra.Ir.Sharing
import Cambra.Lib.Assoc

/-!
# The walk returns the conversion

`PiWalk` remembers conversions and shares them.  The invariant is that a remembered conversion of an
allocation compares as the conversion of what the allocation holds (`PiWalk.Sound`).  It needs that
a conversion is determined by its key, which is where the key of the shadow counts: a conversion
depends on the shadowed names only as far as they are among the names being closed
(`Expr.conv_shadowKey`).  It does not depend on the refinements entered, which the memo of the pass
leaves out of its key: they shift only the type of a reopened reference, and that is not compared.

The walk also has to decide whether it touched a term.  It counts its rewrites, a re-pointed
occurrence among them, and the decision is right because a walk that counted nothing returned the
tree it was given, as far as it is compared (`Ty.walk_spec`).
-/

namespace Cambra.Ir

variable {ι : Type} {m : PiMode}

/-! ## What a conversion depends on -/

/-- Two shadows that agree on every name being closed. -/
def PiMode.SameShadow (m : PiMode) (s t : List Name) : Prop :=
  match m with
  | .close enclosing => ∀ n, some n ∈ enclosing → (n ∈ s ↔ n ∈ t)
  | .openAt _ => True

variable {s t : List Name} {a depth : ℕ} {done : Rc} {W₁ W₂ : World} {s₁ s₂ : PiWalk}

lemma PiMode.SameShadow.append (h : m.SameShadow s t) (ns : List Name) :
    m.SameShadow (s ++ ns) (t ++ ns) := by
  cases m with
  | close enclosing =>
    intro n hn
    rw [List.mem_append, List.mem_append, h n hn]
  | openAt _ => trivial

lemma PiMode.sameShadow_shadowKey (s : List Name) : m.SameShadow s (m.shadowKey s) := by
  cases m with
  | close enclosing =>
    intro n hn
    simp [PiMode.shadowKey, hn]
  | openAt _ => trivial

lemma PiMode.SameShadow.turn_eq (h : m.SameShadow s t) (depth : ℕ) (n : Name) :
    m.turn s depth n = m.turn t depth n := by
  cases m with
  | close enclosing =>
    by_cases hn : some n ∈ enclosing
    · simp [PiMode.turn, h n hn]
    · have hidx : enclosing.reverse.idxOf? (some n) = none := by simpa using hn
      simp [PiMode.turn, hidx]
  | openAt _ => rfl

attribute [local simp] Expr.conv Items.conv Ty.conv Parts.conv Tys.conv

attribute [local grind =] Expr.conv Items.conv Ty.conv Parts.conv Tys.conv

/-- Conversions under binders that are shadowed alike are the same. -/
lemma conv_congr :
    (∀ (e : Expr ι) s t depth, m.SameShadow s t → e.conv m s depth = e.conv m t depth) ∧
    (∀ (is : Items ι) a b s t depth, m.SameShadow a b → m.SameShadow s t →
      is.conv m a s depth = is.conv m b t depth) ∧
    (∀ (ty : Ty ι) s t depth, m.SameShadow s t → ty.conv m s depth = ty.conv m t depth) ∧
    (∀ (ps : Parts ι) s t depth, m.SameShadow s t → ps.conv m s depth = ps.conv m t depth) ∧
    ∀ (ts : Tys ι) s t depth, m.SameShadow s t → ts.conv m s depth = ts.conv m t depth := by
  apply trees_induction
  case var =>
    intro n ty ann hty hann s t depth h
    simp [h.turn_eq, hty s t depth h, hann s t depth h]
  case bind =>
    intro n slots rest hslots hrest a b s t depth ha h
    simp [hslots a b depth ha, hrest a b _ _ depth ha (h.append [n])]
  case cross =>
    intro n rest ih s t depth h
    simp [ih _ _ (depth + 1) (h.append n.toList)]
  all_goals grind

/-- **A conversion is determined by its key.** -/
lemma Expr.conv_shadowKey (s : List Name) (depth : ℕ) (e : Expr ι) :
    e.conv m (m.shadowKey s) depth = e.conv m s depth :=
  (conv_congr.1 e _ _ depth (PiMode.sameShadow_shadowKey s)).symm

/-! ## The invariant of the memo -/

/-- `done` compares as the conversion of what the allocation `a` holds, and is an allocation of the
world. -/
structure World.Converts (W : World) (m : PiMode) (a depth : ℕ) (shadow : List Name) (done : Rc) :
    Prop where
  lt : a < W.next
  done_lt : done.1 < W.next
  done_held : done.2.forget = W.held done.1
  heldIn : done.2.HeldIn W
  conv : (W.held done.1).compared = (W.held a).compared.conv m shadow depth

variable {W W' : World} {s : PiWalk}

lemma World.Converts.mono (h : W.Extends W') {shadow : List Name}
    (hc : W.Converts m a depth shadow done) : W'.Converts m a depth shadow done where
  lt := hc.lt.trans_le h.le
  done_lt := hc.done_lt.trans_le h.le
  done_held := hc.done_held.trans (h.held _ hc.done_lt).symm
  heldIn := hc.heldIn.mono h
  conv := by rw [h.held _ hc.done_lt, h.held _ hc.lt, hc.conv]

/-- Every conversion the walk or the pass around it remembers is one. -/
structure PiWalk.Sound (m : PiMode) (W : World) (s : PiWalk) : Prop where
  next : s.next = W.next
  memo : ∀ key done, (key, done) ∈ s.memo → W.Converts m key.1 key.2.1 key.2.2.2 done
  conversions : ∀ table, s.conversions = some table → ∀ key done, (key, done) ∈ table →
    W.Converts key.2.1 key.1 key.2.2.1 key.2.2.2 done

lemma PiWalk.Sound.mark (h : s.Sound m W) : s.mark.Sound m W := { h with }

lemma PiWalk.Sound.fetch (h : s.Sound m W) (key : PassKey) : (s.fetch m key).Sound m W := by
  unfold PiWalk.fetch
  cases hfound : s.conversions.bind (List.lookup (key.1, m, key.2.1, key.2.2.2)) with
  | none => exact h
  | some done =>
    obtain ⟨table, htable, hlookup⟩ := Option.bind_eq_some_iff.mp hfound
    refine ⟨h.next, fun key' done' hmem => ?_, h.conversions⟩
    rcases List.mem_cons.mp hmem with heq | hmem
    · cases heq
      exact h.conversions table htable _ _ (mem_of_lookup_eq_some hlookup)
    · exact h.memo _ _ hmem

lemma PiWalk.fetch_changed (s : PiWalk) (key : PassKey) : (s.fetch m key).changed = s.changed := by
  unfold PiWalk.fetch
  split <;> rfl

lemma PiWalk.Sound.remember (h : s.Sound m W) {key : PassKey}
    (hdone : W.Converts m key.1 key.2.1 key.2.2.2 done) : (s.remember m key done).Sound m W where
  next := h.next
  memo key' done' hmem := by
    rcases List.mem_cons.mp hmem with heq | hmem
    · cases heq
      exact hdone
    · exact h.memo _ _ hmem
  conversions table htable key' done' hmem := by
    obtain ⟨table₀, htable₀, rfl⟩ := Option.map_eq_some_iff.mp htable
    rcases List.mem_cons.mp hmem with heq | hmem
    · cases heq
      exact hdone
    · exact h.conversions table₀ htable₀ _ _ hmem

/-! ## One step of the walk -/

/-- What walking a part of a tree does to the state: the world grows, the memos stay sound, the
count of rewrites does not go down. -/
structure PiWalk.Step (m : PiMode) (W : World) (s : PiWalk) (W' : World) (s' : PiWalk) : Prop where
  grows : W.Extends W'
  sound : s'.Sound m W'
  le : s.changed ≤ s'.changed

lemma PiWalk.Step.trans {W₃ : World} {s₃ : PiWalk} (h₁ : PiWalk.Step m W₁ s₁ W₂ s₂)
    (h₂ : PiWalk.Step m W₂ s₂ W₃ s₃) : PiWalk.Step m W₁ s₁ W₃ s₃ :=
  ⟨h₁.grows.trans h₂.grows, h₂.sound, h₁.le.trans h₂.le⟩

/-- A world in which one allocation more holds `e`. -/
def World.push (W : World) (e : Expr Unit) : World where
  held := Function.update W.held W.next e
  next := W.next + 1

lemma World.extends_push (W : World) (e : Expr Unit) : W.Extends (W.push e) where
  le := Nat.le_succ _
  held _ ha := Function.update_of_ne ha.ne _ _

lemma PiWalk.Sound.alloc (h : s.Sound m W) (e : Expr ℕ) :
    (s.alloc e).2.Sound m (W.push e.forget) where
  next := congrArg (· + 1) h.next
  memo key done hmem := (h.memo key done hmem).mono (W.extends_push _)
  conversions table htable key done hmem :=
    (h.conversions table htable key done hmem).mono (W.extends_push _)

lemma PiWalk.Sound.held_alloc (h : s.Sound m W) (e : Expr ℕ) :
    (W.push e.forget).held (s.alloc e).1.1 = e.forget := by
  change Function.update W.held W.next e.forget s.next = _
  rw [h.next]
  exact Function.update_self ..

/-- A sort of trees that quote allocations, with what is compared of them. -/
class Tree (T : Type) (V : outParam Type) where
  HeldIn : World → T → Prop
  compared : T → V
  mono {W W' : World} (h : W.Extends W') {t : T} : HeldIn W t → HeldIn W' t

instance : Tree (Expr ℕ) (Expr Unit) := ⟨Expr.HeldIn, Expr.compared, fun h => (heldIn_mono h).1 _⟩
instance : Tree (Items ℕ) (Items Unit) :=
  ⟨Items.HeldIn, Items.compared, fun h => (heldIn_mono h).2.1 _⟩
instance : Tree (Ty ℕ) (Ty Unit) := ⟨Ty.HeldIn, Ty.compared, fun h => (heldIn_mono h).2.2.1 _⟩
instance : Tree (Parts ℕ) (Parts Unit) :=
  ⟨Parts.HeldIn, Parts.compared, fun h => (heldIn_mono h).2.2.2.1 _⟩
instance : Tree (Tys ℕ) (Tys Unit) := ⟨Tys.HeldIn, Tys.compared, fun h => (heldIn_mono h).2.2.2.2 _⟩

section Walks

variable {T T' V V' : Type} [Tree T V] [Tree T' V']

instance : Tree (T × T') (V × V') where
  HeldIn W x := Tree.HeldIn W x.1 ∧ Tree.HeldIn W x.2
  compared x := (Tree.compared x.1, Tree.compared x.2)
  mono h _ hx := ⟨Tree.mono h hx.1, Tree.mono h hx.2⟩

/-- What walking `t` returns: a tree of the later world that compares as the conversion `v`, and as
`t` if no rewrite was counted. -/
structure PiWalk.Returns (m : PiMode) (W : World) (s : PiWalk) (t : T) (v : V) (W' : World)
    (out : T × PiWalk) : Prop extends PiWalk.Step m W s W' out.2 where
  heldIn : Tree.HeldIn W' out.1
  converted : Tree.compared out.1 = v
  same : out.2.changed = s.changed → Tree.compared out.1 = Tree.compared t

/-- **A walk returns the conversion** `v` of `t`, as far as it is compared: from a state whose memos
are sound it returns a tree held in a later world and leaves the memos sound. -/
def PiWalk.Converts (m : PiMode) (run : PiWalk → T × PiWalk) (t : T) (v : V) : Prop :=
  ∀ ⦃W : World⦄ ⦃s : PiWalk⦄, s.Sound m W → Tree.HeldIn W t → ∃ W', Returns m W s t v W' (run s)

variable {run : PiWalk → T × PiWalk} {run' : PiWalk → T' × PiWalk} {t : T} {t' : T'} {v : V}
  {v' : V'} {out : T × PiWalk}

lemma PiWalk.Returns.map (h : Returns m W s t v W' out) (f : T → T') (g : V → V')
    (hheld : Tree.HeldIn W' out.1 → Tree.HeldIn W' (f out.1))
    (hvalue : ∀ x, Tree.compared (f x) = g (Tree.compared x)) :
    Returns m W s (f t) (g v) W' (f out.1, out.2) :=
  ⟨h.toStep, hheld h.heldIn, (hvalue _).trans (congrArg g h.converted), fun heq => by
    rw [hvalue, hvalue, h.same heq]⟩

lemma PiWalk.Returns.of_mark {t₀ : T} (h : Returns m W s.mark t₀ v W' out) :
    Returns m W s t v W' out := by
  have hle : s.changed + 1 ≤ out.2.changed := h.le
  exact ⟨⟨h.grows, h.sound, by omega⟩, h.heldIn, h.converted, fun heq => by omega⟩

lemma PiWalk.Converts.map (h : Converts m run t v) (f : T → T') (g : V → V')
    (hheld : ∀ W x, Tree.HeldIn W x ↔ Tree.HeldIn W (f x))
    (hvalue : ∀ x, Tree.compared (f x) = g (Tree.compared x)) :
    Converts m (fun s => (f (run s).1, (run s).2)) (f t) (g v) :=
  fun _ _ hs ht => (h hs ((hheld ..).mpr ht)).imp fun _ h => h.map f g (hheld ..).mp hvalue

lemma PiWalk.Converts.both (h : Converts m run t v) (h' : Converts m run' t' v') :
    Converts m (fun s => (((run s).1, (run' (run s).2).1), (run' (run s).2).2)) (t, t')
      (v, v') := by
  intro W s hs ht
  obtain ⟨W₁, h₁⟩ := h hs ht.1
  obtain ⟨W₂, h₂⟩ := h' h₁.sound (Tree.mono h₁.grows ht.2)
  refine ⟨W₂, h₁.trans h₂.toStep, ⟨Tree.mono h₂.grows h₁.heldIn, h₂.heldIn⟩,
    Prod.ext h₁.converted h₂.converted, fun heq => ?_⟩
  have hle₁ := h₁.le
  have hle₂ := h₂.le
  have heq : (run' (run s).2).2.changed = s.changed := heq
  exact Prod.ext (h₁.same (by omega)) (h₂.same (by omega))

lemma PiWalk.Converts.pair {B U : Type} [Tree B U] (h : Converts m run t v)
    (h' : Converts m run' t' v') (f : T → T' → B) (g : V → V' → U)
    (hheld : ∀ W x y, Tree.HeldIn W x ∧ Tree.HeldIn W y ↔ Tree.HeldIn W (f x y))
    (hvalue : ∀ x y, Tree.compared (f x y) = g (Tree.compared x) (Tree.compared y)) :
    Converts m (fun s => (f (run s).1 (run' (run s).2).1, (run' (run s).2).2)) (f t t') (g v v') :=
  (h.both h').map (fun x => f x.1 x.2) (fun x => g x.1 x.2) (fun _ _ => hheld ..) fun _ => hvalue ..

/-- A run that leaves the memos sound and returns a tree held in a later world. -/
def PiWalk.Holds (m : PiMode) (run : PiWalk → T × PiWalk) (t : T) : Prop :=
  ∀ ⦃W : World⦄ ⦃s : PiWalk⦄, s.Sound m W → Tree.HeldIn W t →
    ∃ W', Step m W s W' (run s).2 ∧ Tree.HeldIn W' (run s).1

lemma PiWalk.holds_self : Holds m (fun s => (t, s)) t :=
  fun W _ hs ht => ⟨W, ⟨.refl W, hs, le_rfl⟩, ht⟩

lemma PiWalk.Holds.map (h : Holds m run t) (f : T → T')
    (hheld : ∀ W x, Tree.HeldIn W x ↔ Tree.HeldIn W (f x)) :
    Holds m (fun s => (f (run s).1, (run s).2)) (f t) :=
  fun _ _ hs ht => (h hs ((hheld ..).mpr ht)).imp fun _ h => ⟨h.1, (hheld ..).mp h.2⟩

lemma PiWalk.Holds.both (h : Holds m run t) (h' : Holds m run' t') :
    Holds m (fun s => (((run s).1, (run' (run s).2).1), (run' (run s).2).2)) (t, t') := by
  intro W s hs ht
  obtain ⟨W₁, h₁, hin₁⟩ := h hs ht.1
  obtain ⟨W₂, h₂, hin₂⟩ := h' h₁.sound (Tree.mono h₁.grows ht.2)
  exact ⟨W₂, h₁.trans h₂, Tree.mono h₂.grows hin₁, hin₂⟩

lemma PiWalk.Holds.pair {B U : Type} [Tree B U] (h : Holds m run t) (h' : Holds m run' t')
    (f : T → T' → B)
    (hheld : ∀ W x y, Tree.HeldIn W x ∧ Tree.HeldIn W y ↔ Tree.HeldIn W (f x y)) :
    Holds m (fun s => (f (run s).1 (run' (run s).2).1, (run' (run s).2).2)) (f t t') :=
  (h.both h').map (fun x => f x.1 x.2) fun _ _ => hheld ..

lemma PiWalk.converts_self (hvalue : Tree.compared t = v) : Converts m (fun s => (t, s)) t v :=
  fun W _ hs ht => ⟨W, ⟨.refl W, hs, le_rfl⟩, ht, hvalue, fun _ => rfl⟩

end Walks

/-! ## Shifting -/

mutual

lemma Expr.shiftElems_holds (k inside : ℕ) : ∀ e : Expr ℕ, PiWalk.Holds m (e.shiftElems k inside) e
  | .var n ty ann => fun _ _ hs ht => by
    obtain ⟨W₁, h₁, hty⟩ := ty.shiftElems_holds k inside hs ht.1
    obtain ⟨W₂, h₂, hann⟩ := ann.shiftElems_holds k inside h₁.sound (Tree.mono h₁.grows ht.2)
    exact ⟨W₂, h₁.trans h₂, Tree.mono h₂.grows hty, hann⟩
  | .node kind target ty ann slots items =>
    ((ty.shiftElems_holds k inside).both <| (ann.shiftElems_holds k inside).both <|
      (slots.shiftElems_holds k inside).both (items.shiftElems_holds k inside)).map
      (fun x => Expr.node kind target x.1 x.2.1 x.2.2.1 x.2.2.2) fun _ _ => Iff.rfl

lemma Items.shiftElems_holds (k inside : ℕ) : ∀ is : Items ℕ,
    PiWalk.Holds m (is.shiftElems k inside) is
  | .nil => PiWalk.holds_self
  | .child e rest =>
    (e.shiftElems_holds k inside).pair (rest.shiftElems_holds k inside) Items.child
      fun _ _ _ => Iff.rfl
  | .bind n slots rest =>
    (slots.shiftElems_holds k inside).pair (rest.shiftElems_holds k inside) (Items.bind n)
      fun _ _ _ => Iff.rfl
  | .scope inner rest =>
    (inner.shiftElems_holds k inside).pair (rest.shiftElems_holds k inside) Items.scope
      fun _ _ _ => Iff.rfl

lemma Ty.shiftElems_holds (k inside : ℕ) : ∀ t : Ty ℕ, PiWalk.Holds m (t.shiftElems k inside) t
  | .mk kind parts => (parts.shiftElems_holds k inside).map (Ty.mk kind) fun _ _ => Iff.rfl

lemma Parts.shiftElems_holds (k inside : ℕ) : ∀ ps : Parts ℕ,
    PiWalk.Holds m (ps.shiftElems k inside) ps
  | .nil => PiWalk.holds_self
  | .type t rest =>
    (t.shiftElems_holds k inside).pair (rest.shiftElems_holds k inside) Parts.type
      fun _ _ _ => Iff.rfl
  | .cross n rest => (rest.shiftElems_holds k inside).map (Parts.cross n) fun _ _ => Iff.rfl
  | .witness w rest => (rest.shiftElems_holds k inside).map (Parts.witness w) fun _ _ => Iff.rfl
  | .quote b _ e rest => fun W s hs ht => by
    obtain ⟨W₁, h₁, he⟩ := e.shiftElems_holds k (inside + b.toNat) hs ht.2.2.1
    have hpush := W₁.extends_push (e.shiftElems k (inside + b.toNat) s).1.forget
    have hsound := h₁.sound.alloc (e.shiftElems k (inside + b.toNat) s).1
    obtain ⟨W₂, h₂, hrest⟩ := rest.shiftElems_holds k inside hsound
      (Tree.mono (h₁.grows.trans hpush) ht.2.2.2)
    have hnew : (e.shiftElems k (inside + b.toNat) s).2.next < W₁.next + 1 := by
      rw [h₁.sound.next]
      exact Nat.lt_succ_self _
    refine ⟨W₂, ⟨(h₁.grows.trans hpush).trans h₂.grows, h₂.sound, h₁.le.trans h₂.le⟩,
      hnew.trans_le h₂.grows.le, ?_, Tree.mono (hpush.trans h₂.grows) he, hrest⟩
    exact ((h₂.grows.held _ hnew).trans (h₁.sound.held_alloc _)).symm

lemma Tys.shiftElems_holds (k inside : ℕ) : ∀ ts : Tys ℕ, PiWalk.Holds m (ts.shiftElems k inside) ts
  | .nil => PiWalk.holds_self
  | .cons t rest =>
    (t.shiftElems_holds k inside).pair (rest.shiftElems_holds k inside) Tys.cons
      fun _ _ _ => Iff.rfl

end

/-! ## The walk -/

/-- A term that was walked is settled as its conversion. -/
lemma PiWalk.settle_spec {e : Expr ℕ} {walked : Expr ℕ × PiWalk} {shadowed : List Name}
    (ha : a < W.next) (he : e.forget = W.held a) (hin : e.HeldIn W)
    (h : PiWalk.Returns m W s e (e.compared.conv m shadowed depth) W' walked) :
    ∃ W'', PiWalk.Step m W s W'' (s.settle (a, e) walked).2 ∧
      W''.Converts m a depth (m.shadowKey shadowed) (s.settle (a, e) walked).1 ∧
      ((s.settle (a, e) walked).2.changed = s.changed → (s.settle (a, e) walked).1 = (a, e)) := by
  unfold PiWalk.settle
  have hheld : (W'.held a).compared = e.compared := by
    rw [h.grows.held a ha, ← he, e.compared_forget]
  by_cases hchanged : s.changed < walked.2.changed
  · rw [if_pos hchanged]
    have hpush := W'.extends_push walked.1.forget
    have hat := h.sound.held_alloc walked.1
    refine ⟨W'.push walked.1.forget, ⟨h.grows.trans hpush, h.sound.alloc walked.1, h.le⟩,
      ⟨(ha.trans_le h.grows.le).trans_le hpush.le, ?_, hat.symm, h.heldIn.mono hpush, ?_⟩,
      fun heq => absurd heq (ne_of_gt hchanged)⟩
    · exact h.sound.next.trans_lt (Nat.lt_succ_self _)
    · rw [hat, hpush.held a (ha.trans_le h.grows.le), hheld, Expr.conv_shadowKey,
        Expr.compared_forget]
      exact h.converted
  · rw [if_neg hchanged]
    have hsame : walked.1.compared = e.compared := h.same (le_antisymm (not_lt.mp hchanged) h.le)
    refine ⟨W', h.toStep, ⟨ha.trans_le h.grows.le, ha.trans_le h.grows.le,
      he.trans (h.grows.held a ha).symm, hin.mono h.grows, ?_⟩, fun _ => rfl⟩
    change (W'.held a).compared = _
    rw [hheld, Expr.conv_shadowKey]
    exact hsame.symm.trans h.converted

mutual

theorem Expr.walk_spec (shadowed : List Name) (elems depth : ℕ) : ∀ e : Expr ℕ,
    PiWalk.Converts m (e.walk m shadowed elems depth) e (e.compared.conv m shadowed depth)
  | .var n ty ann => by
    have hty := ty.walk_spec shadowed elems depth
    have hvar (n : Name) := hty.pair (ann.walk_spec shadowed elems depth) (Expr.var n)
      (fun _ _ => .var n .blank .nil) (fun _ _ _ => Iff.rfl) fun _ _ => rfl
    intro W s hs ht
    simp only [Expr.walk, Expr.compared, Expr.conv]
    cases m.turn shadowed depth n with
    | kept => exact hvar n hs ht
    | closed i => exact (hvar (.piBound i) hs.mark ht).imp fun _ h => h.of_mark
    | opened y =>
      obtain ⟨W₁, h⟩ := hty hs.mark ht.1
      by_cases helems : 0 < elems
      · obtain ⟨W₂, hstep, hin⟩ := Ty.shiftElems_holds elems 0 _ h.sound h.heldIn
        have hle : s.changed + 1 ≤ _ := h.le.trans hstep.le
        simp only [if_pos helems]
        exact ⟨W₂, ⟨h.grows.trans hstep.grows, hstep.sound, by dsimp only; omega⟩, ⟨hin, trivial⟩,
          rfl, fun heq => by dsimp only at heq; omega⟩
      · simp only [if_neg helems]
        have hvar := h.map (Expr.var y · .nil) (fun _ => Expr.var y .blank .nil) (⟨·, trivial⟩)
          fun _ => rfl
        exact ⟨W₁, hvar.of_mark⟩
  | .node k target ty ann slots items => by
    have hnode := ((ty.walk_spec shadowed elems depth).both <|
      (ann.walk_spec shadowed elems depth).both <| (slots.walk_spec shadowed elems depth).both
        (items.walk_spec shadowed shadowed elems depth)).map
      (fun x => Expr.node k target x.1 x.2.1 x.2.2.1 x.2.2.2)
      (fun x => Expr.node k target .blank .nil (if k = .cast then x.2.2.1 else .nil) x.2.2.2)
      (fun _ _ => Iff.rfl) fun _ => rfl
    have hslots : (if k = .cast then slots.compared else .nil).conv m shadowed depth =
        if k = .cast then slots.compared.conv m shadowed depth else .nil := by split <;> rfl
    rw [Expr.compared, Expr.conv, hslots]
    exact hnode

theorem Items.walk_spec (ambient shadowed : List Name) (elems depth : ℕ) : ∀ is : Items ℕ,
    PiWalk.Converts m (is.walk m ambient shadowed elems depth) is
      (is.compared.conv m ambient shadowed depth)
  | .nil => PiWalk.converts_self rfl
  | .child e rest =>
    (e.walk_spec shadowed elems depth).pair (rest.walk_spec ambient shadowed elems depth)
      Items.child Items.child (fun _ _ _ => Iff.rfl) fun _ _ => rfl
  | .bind n slots rest =>
    (slots.walk_spec ambient elems depth).pair
      (rest.walk_spec ambient (shadowed ++ [n]) elems depth)
      (Items.bind n) (fun _ => Items.bind n .nil) (fun _ _ _ => Iff.rfl) fun _ _ => rfl
  | .scope inner rest =>
    (inner.walk_spec ambient shadowed elems depth).pair
      (rest.walk_spec ambient shadowed elems depth)
      Items.scope Items.scope (fun _ _ _ => Iff.rfl) fun _ _ => rfl

/-- The walk of a type returns a type that compares as its conversion. -/
theorem Ty.walk_spec (shadowed : List Name) (elems depth : ℕ) : ∀ t : Ty ℕ,
    PiWalk.Converts m (t.walk m shadowed elems depth) t (t.compared.conv m shadowed depth)
  | .mk k parts =>
    (parts.walk_spec shadowed elems depth).map (Ty.mk k) (Ty.mk k) (fun _ _ => Iff.rfl) fun _ => rfl

theorem Parts.walk_spec (shadowed : List Name) (elems depth : ℕ) : ∀ ps : Parts ℕ,
    PiWalk.Converts m (ps.walk m shadowed elems depth) ps (ps.compared.conv m shadowed depth)
  | .nil => PiWalk.converts_self rfl
  | .type t rest =>
    (t.walk_spec shadowed elems depth).pair (rest.walk_spec shadowed elems depth)
      Parts.type Parts.type (fun _ _ _ => Iff.rfl) fun _ _ => rfl
  | .cross n rest =>
    (rest.walk_spec (shadowed ++ n.toList) elems (depth + 1)).map (Parts.cross n) (Parts.cross n)
      (fun _ _ => Iff.rfl) fun _ => rfl
  | .witness w rest =>
    (rest.walk_spec shadowed elems depth).map (Parts.witness w) (Parts.witness w)
      (fun _ _ => Iff.rfl) fun _ => rfl
  | .quote b a e rest => by
    intro W s₀ hs₀ ⟨ha, he, hin, hrest⟩
    set key : PassKey := (a, depth, elems + b.toNat, m.shadowKey shadowed) with hkey
    have hcount : (s₀.fetch m key).changed = s₀.changed := s₀.fetch_changed key
    have hs : (s₀.fetch m key).Sound m W := hs₀.fetch key
    simp only [Parts.walk, Parts.conv, Parts.compared, ← hkey]
    generalize s₀.fetch m key = s at hcount hs
    suffices h : ∃ W', PiWalk.Returns m W s _ _ W' _ from
      h.imp fun _ h => ⟨⟨h.grows, h.sound, hcount ▸ h.le⟩, h.heldIn, h.converted,
        fun heq => h.same (heq.trans hcount.symm)⟩
    cases hlookup : s.memo.lookup key with
    | some done =>
      have hdone := hs.memo key done (mem_of_lookup_eq_some hlookup)
      have hconv : done.2.compared = e.compared.conv m shadowed depth := by
        rw [← done.2.compared_forget, hdone.done_held, hdone.conv, hkey, Expr.conv_shadowKey, ← he,
          e.compared_forget]
      by_cases hsame : done.1 = a
      · -- The conversion kept the allocation, so it is the term itself.
        have hfix : e.compared.conv m shadowed depth = e.compared := by
          rw [← hconv, ← done.2.compared_forget, hdone.done_held, hsame, ← he, e.compared_forget]
        obtain ⟨W', h⟩ := rest.walk_spec shadowed elems depth hs hrest
        simp only [if_pos hsame, hfix]
        exact ⟨W', h.map (Parts.quote b a e) (Parts.quote b () e.compared)
          (⟨ha.trans_le h.grows.le, he.trans (h.grows.held a ha).symm, hin.mono h.grows, ·⟩)
          fun _ => rfl⟩
      · obtain ⟨W', h⟩ := rest.walk_spec shadowed elems depth hs.mark hrest
        have hdone' := hdone.mono h.grows
        simp only [if_neg hsame, ← hconv]
        have hquote := h.map (Parts.quote b done.1 done.2) (Parts.quote b () done.2.compared)
          (⟨hdone'.done_lt, hdone'.done_held, hdone'.heldIn, ·⟩) fun _ => rfl
        exact ⟨W', hquote.of_mark⟩
    | none =>
      obtain ⟨W₁, h₁⟩ := e.walk_spec shadowed (elems + b.toNat) depth hs hin
      obtain ⟨W₂, hstep, hdone, hkept⟩ := PiWalk.settle_spec ha he hin h₁
      simp only
      generalize s.settle (a, e) (e.walk m shadowed (elems + b.toNat) depth s) = settled
        at hstep hdone hkept
      have hsound : (settled.2.remember m key settled.1).Sound m W₂ := hstep.sound.remember hdone
      obtain ⟨W₃, h₃⟩ := rest.walk_spec shadowed elems depth hsound (Tree.mono hstep.grows hrest)
      have hdone' := hdone.mono h₃.grows
      have hterm : settled.1.2.compared = e.compared.conv m shadowed depth := by
        rw [← settled.1.2.compared_forget, hdone.done_held, hdone.conv, Expr.conv_shadowKey,
          hstep.grows.held a ha, ← he, e.compared_forget]
      have hle₃ := h₃.le
      have hle : s.changed ≤ settled.2.changed := hstep.le
      refine ⟨W₃, ⟨hstep.grows.trans h₃.grows, h₃.sound, hle.trans hle₃⟩,
        ⟨hdone'.done_lt, hdone'.done_held, hdone'.heldIn, h₃.heldIn⟩,
        congrArg₂ (Parts.quote b ()) hterm h₃.converted, fun heq => ?_⟩
      have hcount₃ := h₃.same (le_antisymm (heq.le.trans hle) hle₃)
      have hkept := hkept (le_antisymm (hle₃.trans heq.le) hle)
      exact congrArg₂ (Parts.quote b ()) (by rw [hkept]) hcount₃

theorem Tys.walk_spec (shadowed : List Name) (elems depth : ℕ) : ∀ ts : Tys ℕ,
    PiWalk.Converts m (ts.walk m shadowed elems depth) ts (ts.compared.conv m shadowed depth)
  | .nil => PiWalk.converts_self rfl
  | .cons t rest =>
    (t.walk_spec shadowed elems depth).pair (rest.walk_spec shadowed elems depth)
      Tys.cons Tys.cons (fun _ _ _ => Iff.rfl) fun _ _ => rfl

end

end Cambra.Ir
