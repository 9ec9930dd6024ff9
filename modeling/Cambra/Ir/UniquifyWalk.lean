import Cambra.Ir.Occurrences

/-!
# What a part of the walk does

Uniquification is one walk over five sorts of trees.  What it does to a part of a tree is stated
once for all of them, as the specification of a `Walk`: how it runs, which binders and predicates it
passes, when its result is equal up to binders to what it walked, and what the result declares and
quotes.  Walks are put together one after another (`Walk.both`), under a binder (`Walk.under`) and
at a predicate (`Walk.predicate`), and their specifications with them, so a tree's specification
follows its shape.

A specification speaks of a state that is `Sound`: the names minted so far are new and told apart,
the predicates rebuilt so far are those met, each rebuild is equal up to binders to its origin under
a scope exactly when the scope gives every occurrence the binder that was in hand, and no two of
them declare a name twice.
-/

namespace Cambra.Ir

open List

/-- Corresponding binders before and after the walk. -/
abbrev Pairs := List (Name × Name)

/-- More predicates are met. -/
def Met.Extends (V V' : Met) : Prop := ∀ a met, V.lookup a = some met → V'.lookup a = some met

lemma Met.Extends.refl (V : Met) : V.Extends V := fun _ _ h => h

variable {V₁ V₂ V₃ V V' : Met} {next next' u k : ℕ} {μ μ' : MintLog} {n : Name} {s : Uniquifier}

lemma Met.Extends.trans (h₁ : V₁.Extends V₂) (h₂ : V₂.Extends V₃) :
    V₁.Extends V₃ := fun a met h => h₂ a met (h₁ a met h)

/-! ## Settled trees -/

section Settled

variable (store : ℕ → Expr ℕ)

mutual

/-- Nothing is left for the walk to do: no binder it reaches is a spelling from the source, no alias
is left, and the predicates it reaches are what `store` holds. -/
def Expr.Settled : Expr ℕ → Prop
  | .var _ ty ann => ty.Settled ∧ ann.Settled
  | .node k _ ty ann slots items =>
    k.Shaped items ∧ k.role ≠ .typeAlias ∧
      (if k.role = .lambda then ty.SettledHalves else ty.Settled) ∧ ann.Settled ∧
      (k.walksSlots = true → slots.Settled) ∧ items.Settled

def Items.Settled : Items ℕ → Prop
  | .nil => True
  | .child e rest => e.Settled ∧ rest.Settled
  | .bind n slots rest => n.isRaw = false ∧ slots.Settled ∧ rest.Settled
  | .scope inner rest => inner.Settled ∧ rest.Settled

def Ty.Settled : Ty ℕ → Prop
  | .mk k parts => parts.Settled (k == .refinement)

def Parts.Settled (refined : Bool) : Parts ℕ → Prop
  | .nil => True
  | .type t rest => t.Settled ∧ rest.Settled refined
  | .cross _ rest => rest.Settled refined
  | .witness _ rest => rest.Settled refined
  | .quote _ a e rest =>
    (refined = true → store a = e ∧ e.Settled) ∧ rest.Settled refined

/-- The halves of a lambda's type are settled. -/
def Ty.SettledHalves : Ty ℕ → Prop
  | .mk (.function _) parts => parts.SettledHalves
  | .mk _ _ => True

def Parts.SettledHalves : Parts ℕ → Prop
  | .type t (.cross _ rest) => t.Settled ∧ rest.Settled false
  | .type _ rest => rest.SettledHalves
  | .witness _ rest => rest.SettledHalves
  | _ => True

def Tys.Settled : Tys ℕ → Prop
  | .nil => True
  | .cons t rest => t.Settled ∧ rest.Settled

end

end Settled

/-! ## Sound states -/

/-- What a state does not hold but its soundness speaks of: the log of the names minted, and what
the allocations the walk made hold. -/
structure Ghost where
  log : MintLog
  store : ℕ → Expr ℕ

/-- Where a walk starts: what was allocated before `base`, and the first identifier it mints. -/
structure Ground where
  held : ℕ → Expr ℕ
  uid₀ : ℕ
  base : ℕ

/-- The two stores agree on the allocations the walk has made. -/
def Agrees (base next : ℕ) (store store' : ℕ → Expr ℕ) : Prop :=
  ∀ d, base ≤ d → d < next → store' d = store d

/-- A quotation in a walked tree: of an allocation the walk made, or of one it did not reach. -/
def Known (base next : ℕ) (store : ℕ → Expr ℕ) (q : ℕ × List Name) : Prop :=
  (base ≤ q.1 ∧ q.1 < next) ∧ q.2 = (store q.1).ownBinders ∨ q.1 < base ∧ ∀ n ∈ q.2, n.isRaw = true

lemma Known.mono {base : ℕ} {store store' : ℕ → Expr ℕ} {q : ℕ × List Name}
    (hstore : Agrees base next store store') (hle : next ≤ next') (h : Known base next store q) :
    Known base next' store' q := by
  rcases h with ⟨⟨hbase, hnext⟩, hown⟩ | h
  · exact .inl ⟨⟨hbase, hnext.trans_le hle⟩, by rw [hown, hstore _ hbase hnext]⟩
  · exact .inr h

section Spec

variable (G : Ground)

/-- Whatever the walk meets and mints later, and under any scope, the result is alike exactly when
the two rules agree. -/
def Judged (uid₀ : ℕ) (V : Met) (μ : MintLog) (alike : Pairs → Pairs → Prop)
    (good : Met → Scope → Scope → Prop) : Prop :=
  ∀ ⦃V' : Met⦄ ⦃μ' : MintLog⦄ ⦃around : Scope⦄ ⦃aroundPairs : Pairs⦄ ⦃Γ : Scope⦄ ⦃pairs : Pairs⦄,
    V.Extends V' → μ ⊆ μ' → μ'.Consistent uid₀ →
    List.Forall₂ (MintLog.InScope uid₀ μ') around aroundPairs →
    List.Forall₂ (MintLog.InScope uid₀ μ') Γ pairs → (alike aroundPairs pairs ↔ good V' around Γ)

/-- A predicate and its rebuild. -/
structure Rebuilt (V : Met) (g : Ghost) (next a : ℕ) (done : Rc) : Prop where
  made : G.base ≤ done.1 ∧ done.1 < next
  stored : g.store done.1 = done.2
  settled : ∀ store', Agrees G.base next g.store store' → done.2.Settled store'
  quoted : ∀ q ∈ done.2.quoted, Known G.base next g.store q
  judged : ∃ env k, V.lookup a = some (env, k) ∧
    Judged G.uid₀ V g.log (fun _ pairs => (G.held a).Alpha pairs done.2 ∧ done.2.Minted)
      fun V' _ Γ => (G.held a).Good V' Γ env k

/-- The state of a walk that has met `V` and reaches binder `k` next. -/
structure Uniquifier.Sound (V : Met) (g : Ghost) (k : ℕ) (s : Uniquifier) : Prop where
  consistent : g.log.Consistent G.uid₀
  passed : ∀ x ∈ g.log, x.1 < k ∧ x.2.Old s.uid
  uid_le : G.uid₀ ≤ s.uid
  base_le : G.base ≤ s.next
  missing : ∀ a, s.memo.lookup a = none ↔ V.lookup a = none
  rebuilt : ∀ a done, s.memo.lookup a = some done → Rebuilt G V g s.next a done
  nodup : ∀ d, G.base ≤ d → d < s.next → (g.store d).ownBinders.Nodup
  minted : ∀ d, G.base ≤ d → d < s.next → ∀ n ∈ (g.store d).ownBinders, n.Old s.uid
  apart : ∀ d d', G.base ≤ d → d < s.next → G.base ≤ d' → d' < s.next → d ≠ d' →
    (g.store d).ownBinders.Disjoint (g.store d').ownBinders

/-- What a part of the walk does to the state.  It meets predicates below `bound` only, and what it
stores declares names it minted. -/
structure Uniquifier.Step (bound : ℕ) (V : Met) (g : Ghost) (s : Uniquifier) (V' : Met)
    (g' : Ghost) (k' : ℕ) (s' : Uniquifier) : Prop where
  sound : s'.Sound G V' g' k'
  met : V.Extends V'
  older : ∀ a, bound ≤ a → V'.lookup a = V.lookup a
  log : g.log ⊆ g'.log
  store : Agrees G.base s.next g.store g'.store
  base_le : G.base ≤ s.next
  uid_le : s.uid ≤ s'.uid
  next_le : s.next ≤ s'.next
  newer : ∀ d, s.next ≤ d → d < s'.next → ∀ n ∈ (g'.store d).ownBinders, ¬n.Old s.uid

/-! ## Walks -/

/-- A walk over a part of a tree, with what its specification speaks of. -/
structure Walk (T : Type) where
  /-- The walk, with names in hand and from a state. -/
  run : UniqueEnv → Uniquifier → T × Uniquifier
  /-- The binders it passes. -/
  count : ℕ
  /-- The predicates it meets. -/
  meet : BinderEnv → ℕ → Met → Met
  /-- The result is alike under the corresponding binders around the node and at the part. -/
  alike : Pairs → Pairs → T → Prop
  /-- The two rules agree under the scopes around the node and at the part. -/
  good : Met → Scope → Scope → BinderEnv → ℕ → Prop
  /-- The binders the result declares outside the terms it quotes. -/
  own : T → List Name
  /-- The allocations it quotes. -/
  quoted : T → List (ℕ × List Name)
  /-- It is settled. -/
  settled : (ℕ → Expr ℕ) → T → Prop

/-- What a walk returns. -/
structure Walk.Returns {T : Type} (w : Walk T) (bound : ℕ) (env : BinderEnv) (k : ℕ) (V : Met)
    (g : Ghost) (s : Uniquifier) (g' : Ghost) (out : T × Uniquifier) : Prop extends
    Uniquifier.Step G bound V g s (w.meet env k V) g' (k + w.count) out.2 where
  judged : Judged G.uid₀ (w.meet env k V) g'.log (fun around pairs => w.alike around pairs out.1)
    fun V' around Γ => w.good V' around Γ env k
  nodup : (w.own out.1).Nodup
  own : ∀ n ∈ w.own out.1, ¬n.Old s.uid ∧ n.Old out.2.uid
  apart : ∀ d, G.base ≤ d → d < out.2.next → (w.own out.1).Disjoint (g'.store d).ownBinders
  quoted : ∀ q ∈ w.quoted out.1, Known G.base out.2.next g'.store q
  settled : ∀ store', Agrees G.base out.2.next g'.store store' → w.settled store' out.1

/-- The walk does what it should from every sound state. -/
def Walk.Spec {T : Type} (w : Walk T) (bound : ℕ) : Prop :=
  ∀ ⦃env : BinderEnv⦄ ⦃names : UniqueEnv⦄ ⦃k : ℕ⦄ ⦃s : Uniquifier⦄ ⦃V : Met⦄ ⦃g : Ghost⦄,
    s.Sound G V g k → List.Forall₂ g.log.InHand env names →
    ∃ g', w.Returns G bound env k V g s g' (w.run names s)

end Spec

variable {G : Ground} {uid₀ base bound : ℕ} {T T' : Type}

/-! ## Rules -/

lemma Judged.mono {alike : Pairs → Pairs → Prop} {good : Met → Scope → Scope → Prop}
    (hV : V.Extends V') (hμ : μ ⊆ μ') (h : Judged uid₀ V μ alike good) :
    Judged uid₀ V' μ' alike good :=
  fun _ _ _ _ _ _ hV' hμ' => h (hV.trans hV') (List.Subset.trans hμ hμ')

lemma Agrees.trans {store₁ store₂ store₃ : ℕ → Expr ℕ} (hle : next ≤ next')
    (h₁ : Agrees base next store₁ store₂) (h₂ : Agrees base next' store₂ store₃) :
    Agrees base next store₁ store₃ :=
  fun d hd hlt => (h₂ d hd (hlt.trans_le hle)).trans (h₁ d hd hlt)

lemma Name.Old.mono {v : ℕ} (h : u ≤ v) (hn : n.Old u) : n.Old v := by
  cases n with
  | unique _ w _ => exact lt_of_lt_of_le hn h
  | _ => trivial

lemma Name.ne_of_old {m : Name} (hn : n.Old u) (hm : ¬m.Old u) : n ≠ m := by
  rintro rfl
  exact hm hn

variable {g : Ghost} {w : Walk T}

lemma Uniquifier.Sound.later {k' : ℕ} (hk : k ≤ k') (h : s.Sound G V g k) : s.Sound G V g k' :=
  { h with passed := fun x hx => ⟨(h.passed x hx).1.trans_le hk, (h.passed x hx).2⟩ }

lemma Uniquifier.Sound.stay (h : s.Sound G V g k) : Uniquifier.Step G bound V g s V g k s where
  sound := h
  met := .refl V
  older _ _ := rfl
  log := fun _ hx => hx
  store _ _ _ := rfl
  base_le := h.base_le
  uid_le := le_rfl
  next_le := le_rfl
  newer _ hle hlt := absurd hlt (not_lt.mpr hle)

lemma Uniquifier.Step.trans {g₁ g₂ g₃ : Ghost} {s₁ s₂ s₃ : Uniquifier} {k₂ k₃ : ℕ}
    (h₁ : Uniquifier.Step G bound V₁ g₁ s₁ V₂ g₂ k₂ s₂)
    (h₂ : Uniquifier.Step G bound V₂ g₂ s₂ V₃ g₃ k₃ s₃) :
    Uniquifier.Step G bound V₁ g₁ s₁ V₃ g₃ k₃ s₃ where
  sound := h₂.sound
  met := h₁.met.trans h₂.met
  older a ha := (h₂.older a ha).trans (h₁.older a ha)
  log := List.Subset.trans h₁.log h₂.log
  store := h₁.store.trans h₁.next_le h₂.store
  base_le := h₁.base_le
  uid_le := h₁.uid_le.trans h₂.uid_le
  next_le := h₁.next_le.trans h₂.next_le
  newer d hle hlt n hn := by
    rcases lt_or_ge d s₂.next with hd | hd
    · rw [h₂.store d (h₁.base_le.trans hle) hd] at hn
      exact h₁.newer d hle hd n hn
    · exact fun hold => h₂.newer d hd hlt n hn (hold.mono h₁.uid_le)

lemma MintLog.InHand.mono_all (hsub : μ ⊆ μ') {env : BinderEnv} {names : UniqueEnv}
    (h : List.Forall₂ μ.InHand env names) : List.Forall₂ μ'.InHand env names :=
  h.imp fun _ _ => MintLog.InHand.mono hsub

/-- One walk after another. -/
def Walk.both (w₁ : Walk T) (w₂ : Walk T') : Walk (T × T') where
  run names s :=
    let x := w₁.run names s
    let y := w₂.run names x.2
    ((x.1, y.1), y.2)
  count := w₁.count + w₂.count
  meet env k V := w₂.meet env (k + w₁.count) (w₁.meet env k V)
  alike around pairs x := w₁.alike around pairs x.1 ∧ w₂.alike around pairs x.2
  good V around Γ env k := w₁.good V around Γ env k ∧ w₂.good V around Γ env (k + w₁.count)
  own x := w₁.own x.1 ++ w₂.own x.2
  quoted x := w₁.quoted x.1 ++ w₂.quoted x.2
  settled store x := w₁.settled store x.1 ∧ w₂.settled store x.2

lemma Walk.Spec.both {w₁ : Walk T} {w₂ : Walk T'} (h₁ : w₁.Spec G bound)
    (h₂ : w₂.Spec G bound) : (w₁.both w₂).Spec G bound := by
  intro env names k s V g hs henv
  obtain ⟨g₁, r₁⟩ := h₁ hs henv
  obtain ⟨g₂, r₂⟩ := h₂ r₁.sound (MintLog.InHand.mono_all r₁.log henv)
  have hstep := r₁.toStep.trans r₂.toStep
  rw [Nat.add_assoc] at hstep
  refine ⟨g₂, ⟨hstep, ?_, ?_, ?_, ?_, ?_, ?_⟩⟩
  · exact fun _ _ _ _ _ _ hV hμ hcons haround hΓ => and_congr
      (r₁.judged.mono r₂.met r₂.log hV hμ hcons haround hΓ) (r₂.judged hV hμ hcons haround hΓ)
  · refine nodup_append.mpr ⟨r₁.nodup, r₂.nodup, fun n hn m hm => ?_⟩
    exact Name.ne_of_old (r₁.own n hn).2 (r₂.own m hm).1
  · intro n hn
    rcases mem_append.mp hn with hn | hn
    · exact ⟨(r₁.own n hn).1, (r₁.own n hn).2.mono r₂.uid_le⟩
    · exact ⟨fun hold => (r₂.own n hn).1 (hold.mono r₁.uid_le), (r₂.own n hn).2⟩
  · intro d hd hlt
    refine disjoint_append_left.mpr ⟨fun n hn hstored => ?_, r₂.apart d hd hlt⟩
    rcases lt_or_ge d (w₁.run names s).2.next with hlt₁ | hge
    · rw [r₂.store d hd hlt₁] at hstored
      exact r₁.apart d hd hlt₁ hn hstored
    · exact r₂.newer d hge hlt n hstored (r₁.own n hn).2
  · intro q hq
    rcases mem_append.mp hq with hq | hq
    · exact (r₁.quoted q hq).mono r₂.store r₂.next_le
    · exact r₂.quoted q hq
  · exact fun store' hagrees => ⟨r₁.settled store' (r₂.store.trans r₂.next_le hagrees),
      r₂.settled store' hagrees⟩

lemma Walk.Spec.map {w' : Walk T'} (h : w.Spec G bound) (f : T → T')
    (hrun : ∀ names s, w'.run names s = (f (w.run names s).1, (w.run names s).2))
    (hcount : w'.count = w.count) (hmeet : ∀ env k V, w'.meet env k V = w.meet env k V)
    (halike : ∀ around pairs x, w'.alike around pairs (f x) ↔ w.alike around pairs x)
    (hgood : ∀ V around Γ env k, w'.good V around Γ env k ↔ w.good V around Γ env k)
    (hown : ∀ x, w'.own (f x) = w.own x) (hquoted : ∀ x, w'.quoted (f x) ⊆ w.quoted x)
    (hsettled : ∀ store x, w.settled store x → w'.settled store (f x)) :
    w'.Spec G bound := by
  intro env names k s V g hs henv
  obtain ⟨g', r⟩ := h hs henv
  have hstep := r.toStep
  rw [← hmeet, ← hcount] at hstep
  rw [hrun]
  refine ⟨g', ⟨hstep, ?_, ?_, ?_, ?_, ?_, ?_⟩⟩
  · intro V' μ' around aroundPairs Γ pairs hV hμ hcons haround hΓ
    rw [hmeet] at hV
    exact (halike ..).trans ((r.judged hV hμ hcons haround hΓ).trans (hgood ..).symm)
  · rw [hown]
    exact r.nodup
  · rw [hown]
    exact r.own
  · rw [hown]
    exact r.apart
  · exact fun q hq => r.quoted q (hquoted _ hq)
  · exact fun store' hagrees => hsettled store' _ (r.settled store' hagrees)

/-- A walk over a part that stands under other scopes. -/
def Walk.rescope (w : Walk T) (pairsAt : Pairs → Pairs → Pairs) (scopeAt : Scope → Scope → Scope) :
    Walk T :=
  { w with
    alike := fun around pairs => w.alike around (pairsAt around pairs)
    good := fun V around Γ => w.good V around (scopeAt around Γ) }

lemma Walk.Spec.rescope (h : w.Spec G bound) {pairsAt : Pairs → Pairs → Pairs}
    {scopeAt : Scope → Scope → Scope}
    (hmatch : ∀ {μ : MintLog} {around : Scope} {aroundPairs : Pairs} {Γ : Scope} {pairs : Pairs},
      List.Forall₂ (MintLog.InScope G.uid₀ μ) around aroundPairs →
      List.Forall₂ (MintLog.InScope G.uid₀ μ) Γ pairs →
      List.Forall₂ (MintLog.InScope G.uid₀ μ) (scopeAt around Γ) (pairsAt aroundPairs pairs)) :
    (w.rescope pairsAt scopeAt).Spec G bound := by
  intro env names k s V g hs henv
  obtain ⟨g', r⟩ := h hs henv
  exact ⟨g', { r with
    judged := fun _ _ _ _ _ _ hV hμ hcons haround hΓ =>
      r.judged hV hμ hcons haround (hmatch haround hΓ) }⟩

/-- A walk over the items of a node, which stand where the node does. -/
def Walk.root (w : Walk T) : Walk T := { w with
    alike := fun _ pairs => w.alike pairs pairs
    good := fun V _ Γ => w.good V Γ Γ }

lemma Walk.Spec.root (h : w.Spec G bound) : w.root.Spec G bound := by
  intro env names k s V g hs henv
  obtain ⟨g', r⟩ := h hs henv
  exact ⟨g', { r with
    judged := fun _ _ _ _ _ _ hV hμ hcons _ hΓ => r.judged hV hμ hcons hΓ hΓ }⟩

/-- A walk whose result is dropped. -/
def Walk.drop (w : Walk T) : Walk Unit where
  run names s := ((), (w.run names s).2)
  count := w.count
  meet := w.meet
  alike _ _ _ := True
  good _ _ _ _ _ := True
  own _ := []
  quoted _ := []
  settled _ _ := True

lemma Walk.Spec.drop (h : w.Spec G bound) : w.drop.Spec G bound := by
  intro env names k s V g hs henv
  obtain ⟨g', r⟩ := h hs henv
  exact ⟨g', ⟨r.toStep, fun _ _ _ _ _ _ _ _ _ _ _ => Iff.rfl, nodup_nil,
    fun _ h => absurd h List.not_mem_nil, fun _ _ _ => disjoint_nil_left _,
    fun _ h => absurd h List.not_mem_nil, fun _ _ => trivial⟩⟩

/-- A part the walk leaves, or rewrites without passing a binder or a predicate. -/
lemma Walk.Spec.still (x : UniqueEnv → T) (hrun : ∀ names s, w.run names s = (x names, s))
    (hcount : w.count = 0) (hmeet : ∀ env k V, w.meet env k V = V)
    (hjudged : ∀ ⦃env : BinderEnv⦄ ⦃names : UniqueEnv⦄ ⦃k : ℕ⦄ ⦃V : Met⦄ ⦃μ : MintLog⦄,
      List.Forall₂ μ.InHand env names →
      Judged G.uid₀ V μ (fun around pairs => w.alike around pairs (x names))
        fun V' around Γ => w.good V' around Γ env k) (hown : ∀ names, w.own (x names) = [])
    (hquoted : ∀ names, ∀ q ∈ w.quoted (x names), q.1 < G.base ∧ ∀ n ∈ q.2, n.isRaw = true)
    (hsettled : ∀ store names, w.settled store (x names)) : w.Spec G bound := by
  intro env names k s V g hs henv
  have hstep : Uniquifier.Step G bound V g s (w.meet env k V) g (k + w.count) s := by
    rw [hmeet, hcount]
    exact hs.stay
  rw [hrun]
  refine ⟨g, ⟨hstep, ?_, ?_, ?_, ?_, ?_, ?_⟩⟩
  · rw [hmeet]
    exact hjudged henv
  · rw [hown]
    exact nodup_nil
  · rw [hown]
    exact fun _ h => absurd h List.not_mem_nil
  · rw [hown]
    exact fun _ _ _ => disjoint_nil_left _
  · exact fun q hq => .inr (hquoted names q hq)
  · exact fun store' _ => hsettled store' names

lemma Rebuilt.mono {g' : Ghost} {a : ℕ} {done : Rc} (hV : V.Extends V') (hlog : g.log ⊆ g'.log)
    (hstore : Agrees G.base next g.store g'.store) (hle : next ≤ next')
    (h : Rebuilt G V g next a done) : Rebuilt G V' g' next' a done where
  made := ⟨h.made.1, h.made.2.trans_le hle⟩
  stored := (hstore _ h.made.1 h.made.2).trans h.stored
  settled store' hagrees := h.settled store' (hstore.trans hle hagrees)
  quoted q hq := (h.quoted q hq).mono hstore hle
  judged := by
    obtain ⟨env, k, hlookup, hjudged⟩ := h.judged
    exact ⟨env, k, hV _ _ hlookup, hjudged.mono hV hlog⟩

/-! ## Under a binder -/

/-- A walk under a binder. -/
def Walk.under (home : Option Home) (n : Name) (w : Walk T) : Walk (Name × T) where
  run names s :=
    let bound := s.bindName home names n
    let x := w.run bound.2.1 bound.2.2
    ((bound.1, x.1), x.2)
  count := 1 + w.count
  meet env k V := w.meet (env.push n k) (k + 1) V
  alike around pairs x := x.1.isRaw = false ∧ w.alike around ((n, x.1) :: pairs) x.2
  good V around Γ env k := w.good V around ((n, some k) :: Γ) (env.push n k) (k + 1)
  own x := x.1 :: w.own x.2
  quoted x := w.quoted x.2
  settled store x := x.1.isRaw = false ∧ w.settled store x.2

/-- A binder is passed: its name is new, and the log grows by it. -/
lemma Uniquifier.Sound.mint (h : s.Sound G V g k) (spelling : String) (home : Option Home) :
    ({ s with uid := s.uid + 1 } : Uniquifier).Sound G V
      { g with log := (k, .unique spelling s.uid home) :: g.log } (k + 1) where
  __ := h
  consistent := by
    have hnew : ∀ x ∈ g.log, ¬x.1 = k ∧ ¬x.2 = .unique spelling s.uid home := fun x hx =>
      ⟨(h.passed x hx).1.ne, Name.ne_of_old (h.passed x hx).2 (lt_irrefl s.uid)⟩
    refine ⟨fun x hx y hy => ?_, fun x hx => ?_⟩
    · rcases List.mem_cons.mp hx with rfl | hx <;> rcases List.mem_cons.mp hy with rfl | hy
      · exact ⟨fun _ => rfl, fun _ => rfl⟩
      · exact ⟨fun heq => absurd heq.symm (hnew y hy).1, fun heq => absurd heq.symm (hnew y hy).2⟩
      · exact ⟨fun heq => absurd heq (hnew x hx).1, fun heq => absurd heq (hnew x hx).2⟩
      · exact h.consistent.eq_iff x hx y hy
    · rcases List.mem_cons.mp hx with rfl | hx
      · exact not_lt.mpr h.uid_le
      · exact h.consistent.fresh x hx
  passed x hx := by
    rcases List.mem_cons.mp hx with rfl | hx
    · exact ⟨Nat.lt_succ_self k, Nat.lt_succ_self s.uid⟩
    · exact ⟨(h.passed x hx).1.trans (Nat.lt_succ_self k),
        (h.passed x hx).2.mono (Nat.le_succ s.uid)⟩
  uid_le := h.uid_le.trans (Nat.le_succ s.uid)
  rebuilt a done hdone := (h.rebuilt a done hdone).mono (.refl V)
    (subset_cons_self _ _) (fun _ _ _ => rfl) le_rfl
  minted d hd hlt n hn := (h.minted d hd hlt n hn).mono (Nat.le_succ s.uid)

lemma Walk.Spec.under (h : w.Spec G bound) (home : Option Home) (hn : n.isRaw = true) :
    (w.under home n).Spec G bound := by
  obtain ⟨spelling, rfl⟩ : ∃ spelling, n = .raw spelling := by
    cases n with
    | raw spelling => exact ⟨spelling, rfl⟩
    | _ => exact Bool.noConfusion hn
  intro env names k s V g hs henv
  set fresh := Name.unique spelling s.uid home with hfresh
  have hmint := hs.mint spelling home
  have hsub : g.log ⊆ (k, fresh) :: g.log := subset_cons_self _ _
  have henv' : List.Forall₂ (MintLog.InHand ((k, fresh) :: g.log)) ((spelling, k) :: env)
      ((spelling, fresh) :: names) :=
    .cons ⟨mem_cons_self⟩ (MintLog.InHand.mono_all hsub henv)
  obtain ⟨g', r⟩ := h hmint henv'
  have hcount : k + 1 + w.count = k + (1 + w.count) := Nat.add_assoc k 1 w.count
  have hstep : Uniquifier.Step G bound V g s
      (w.meet ((spelling, k) :: env) (k + 1) V) g' (k + (1 + w.count))
      (w.run ((spelling, fresh) :: names) { s with uid := s.uid + 1 }).2 := by
    refine { r.toStep with
      sound := hcount ▸ r.sound
      log := List.Subset.trans hsub r.log
      uid_le := (Nat.le_succ s.uid).trans r.uid_le
      newer := fun d hle hlt n hn hold => r.newer d hle hlt n hn (hold.mono (Nat.le_succ s.uid)) }
  have hnew : ∀ m ∈ w.own (w.run ((spelling, fresh) :: names) { s with uid := s.uid + 1 }).1,
      ¬m.Old (s.uid + 1) := fun m hm => (r.own m hm).1
  have hfreshOld : fresh.Old (s.uid + 1) := Nat.lt_succ_self s.uid
  refine ⟨g', ⟨hstep, ?_, ?_, ?_, ?_, r.quoted, fun store' hagrees =>
    ⟨rfl, r.settled store' hagrees⟩⟩⟩
  · intro V' μ' around aroundPairs Γ pairs hV hμ hcons haround hΓ
    have hmem : (k, fresh) ∈ μ' := hμ (r.log mem_cons_self)
    have hΓ' : List.Forall₂ (MintLog.InScope G.uid₀ μ') ((.raw spelling, some k) :: Γ)
        ((.raw spelling, fresh) :: pairs) := .cons (.bound hmem) hΓ
    exact (and_iff_right rfl).trans (r.judged hV hμ hcons haround hΓ')
  · exact nodup_cons.mpr ⟨fun hmem => hnew fresh hmem hfreshOld, r.nodup⟩
  · intro m hm
    rcases List.mem_cons.mp hm with rfl | hm
    · exact ⟨lt_irrefl s.uid, hfreshOld.mono r.uid_le⟩
    · exact ⟨fun hold => hnew m hm (hold.mono (Nat.le_succ s.uid)), (r.own m hm).2⟩
  · intro d hd hlt
    refine disjoint_cons_left.mpr ⟨fun hmem => ?_, r.apart d hd hlt⟩
    rcases lt_or_ge d s.next with hlt' | hge
    · rw [r.store d hd hlt'] at hmem
      exact lt_irrefl s.uid (hs.minted d hd hlt' fresh hmem)
    · exact r.newer d hge hlt fresh hmem hfreshOld

end Cambra.Ir
