import Cambra.Ir.UniquifySpec

/-!
# Every tree meets its specification
-/

namespace Cambra.Ir

variable {ι : Type} {G : Ground} {held : ℕ → Expr ℕ} {uid₀ bound : ℕ} {home : Option Home}

/-! ## The halves of a lambda's type -/

/-- The domain, the binder and what stands under it, of a function type's parts. -/
def Parts.halves : Parts ι → Option (Ty ι × Option Name × Parts ι)
  | .type t (.cross n rest) => some (t, n, rest)
  | .type _ rest => rest.halves
  | .witness _ rest => rest.halves
  | _ => none

/-- What precedes the domain: the candidates of the witnesses. -/
def Parts.front : Parts ι → Parts ι
  | .type _ (.cross _ _) => .nil
  | .type t rest => .type t rest.front
  | .witness w rest => .witness w rest.front
  | _ => .nil

-- what follows goes along `halves`
attribute [elab_as_elim] Parts.halves.induct_unfolding

section Halves

variable {p : Parts ℕ} {t : Ty ℕ} {n : Option Name} {rest : Parts ℕ}

lemma Parts.withHalves_ne_cross (h : ∀ m q, p ≠ .cross m q) (d : Option (Ty ℕ)) (c : Parts ℕ)
    (m : Option Name) (q : Parts ℕ) : Parts.withHalves d c p ≠ .cross m q := by
  unfold Parts.withHalves
  split <;> simp_all

variable (h : p.halves = some (t, n, rest))

include h

lemma Parts.domainCount_of_halves :
    p.domainCount = t.count ∧ p.codomainCount = rest.count false := by
  fun_induction Parts.halves p <;> simp_all [Parts.domainCount, Parts.codomainCount]

lemma Parts.meetHalves_of_halves (env : BinderEnv) (k : ℕ) (V : Met) :
    p.meetDomain env k V = t.meet env k V ∧ p.meetCodomain env k V = rest.meet env false k V := by
  fun_induction Parts.halves p <;> simp_all [Parts.meetDomain, Parts.meetCodomain]

lemma Parts.uniquifyHalves_of_halves (names : UniqueEnv) (s : Uniquifier) :
    p.uniquifyDomain home names s =
        (some (t.uniquify home names s).1, (t.uniquify home names s).2) ∧
      p.uniquifyCodomain home names s = rest.uniquify home names false s := by
  fun_induction Parts.halves p <;> simp_all [Parts.uniquifyDomain, Parts.uniquifyCodomain]

lemma Parts.Lowered.halves (hp : p.Lowered held uid₀ bound) :
    p.front.Lowered held uid₀ bound ∧ t.Lowered held uid₀ bound ∧ (∀ x ∈ n, x.Old uid₀) ∧
      rest.Lowered held uid₀ bound := by
  fun_induction Parts.halves p <;> simp_all [Parts.Lowered, Parts.front]

lemma Parts.goodHalves_iff (V : Met) (Γ : Scope) (env : BinderEnv) (k : ℕ) (inner : BinderEnv)
    (k' : ℕ) :
    p.GoodHalves V Γ env k inner k' ↔
      p.front.Inert Γ ∧ t.Good V Γ env k ∧ rest.Good V false (Γ.cross n) inner k' := by
  fun_induction Parts.halves p <;>
    simp_all [Parts.GoodHalves, Parts.front, Parts.Inert, and_assoc]

lemma Parts.alpha_withHalves_iff (pairs : Pairs) (t' : Ty ℕ) (rest' : Parts ℕ) :
    p.Alpha pairs (Parts.withHalves (some t') rest' p) ∧
        (Parts.withHalves (some t') rest' p).Minted ↔
      (p.front.Alpha pairs p.front ∧ p.front.Minted) ∧ (t.Alpha pairs t' ∧ t'.Minted) ∧
        rest.Alpha (crossBoth pairs n n) rest' ∧ rest'.Minted := by
  fun_induction Parts.halves p <;>
    simp_all [Parts.withHalves, Parts.front, Parts.Alpha, Parts.Minted] <;> tauto

lemma Parts.quoted_withHalves (t' : Ty ℕ) (rest' : Parts ℕ) :
    (Parts.withHalves (some t') rest' p).quoted =
      p.front.quoted ++ (t'.quoted ++ rest'.quoted) := by
  fun_induction Parts.halves p <;>
    simp_all [Parts.withHalves, Parts.front, Parts.quoted]

lemma Parts.settledHalves_withHalves (store : ℕ → Expr ℕ) (t' : Ty ℕ) (rest' : Parts ℕ) :
    (Parts.withHalves (some t') rest' p).SettledHalves store ↔
      t'.Settled store ∧ rest'.Settled store false := by
  fun_induction Parts.halves p <;>
    simp_all [Parts.withHalves, Parts.SettledHalves, Parts.withHalves_ne_cross]

omit h in
lemma Parts.halves_unreached (home : Option Home) (h : p.halves = none) :
    (p.domainCount = 0 ∧ p.codomainCount = 0) ∧
      (∀ env k V, p.meetDomain env k V = V ∧ p.meetCodomain env k V = V) ∧
      (∀ names s, p.uniquifyDomain home names s = (none, s) ∧
        p.uniquifyCodomain home names s = (.nil, s)) ∧
      Parts.withHalves none .nil p = p ∧
      (∀ V Γ env k inner k', p.GoodHalves V Γ env k inner k' ↔ p.Inert Γ) ∧
      ∀ store, p.SettledHalves store := by
  fun_induction Parts.halves p <;>
    simp_all [Parts.domainCount, Parts.codomainCount, Parts.meetDomain, Parts.meetCodomain,
      Parts.uniquifyDomain, Parts.uniquifyCodomain, Parts.withHalves, Parts.GoodHalves, Parts.Inert,
      Parts.SettledHalves]

end Halves

/-- A type without halves to walk: not a function type, or one without a binder. -/
lemma Ty.halves_unreached (home : Option Home) {p : Parts ℕ} {kind : TyKind}
    (h : ∀ k, kind = .function k → p.halves = none) :
    ((Ty.mk kind p).domainCount = 0 ∧ (Ty.mk kind p).codomainCount = 0) ∧
      (∀ env k V, (Ty.mk kind p).meetDomain env k V = V ∧ (Ty.mk kind p).meetCodomain env k V = V) ∧
      (∀ names s, (Ty.mk kind p).uniquifyDomain home names s = (none, s) ∧
        (Ty.mk kind p).uniquifyCodomain home names s = (.nil, s)) ∧
      Ty.withHalves none .nil (Ty.mk kind p) = .mk kind p ∧
      (∀ V Γ env k inner k', (Ty.mk kind p).GoodHalves V Γ env k inner k' ↔ p.Inert Γ) ∧
      ∀ store, (Ty.mk kind p).SettledHalves store := by
  cases kind with
  | function k =>
    obtain ⟨hcount, hmeet, hrun, hwith, hrest⟩ := Parts.halves_unreached home (h k rfl)
    exact ⟨hcount, hmeet, hrun, congrArg (Ty.mk _) hwith, hrest⟩
  | _ =>
    exact ⟨⟨rfl, rfl⟩, fun _ _ _ => ⟨rfl, rfl⟩, fun _ _ => ⟨rfl, rfl⟩, rfl,
      fun _ _ _ _ _ _ => Iff.rfl, fun _ => trivial⟩

/-! ## The walk of a node by its role -/

-- The parts of a walk are those of what it walks.
attribute [local simp] Expr.asWalk Items.asWalk Ty.asWalk Tys.asWalk Parts.asWalk Walk.both
  Walk.root Walk.under Walk.rescope Walk.keepParts Walk.keepTys Walk.ownSlots Walk.target Walk.drop
  Walk.reference Walk.predicate Walk.keepQuoted

section Node

variable {k : NodeKind} {target : Option Name} {ty : Ty ℕ} {ann slots : Tys ℕ} {items : Items ℕ}

lemma Expr.uniquify_plain (hk : k.role = .plain) (names : UniqueEnv) (top : Bool) (s : Uniquifier) :
    (Expr.node k target ty ann slots items).uniquify home names top s =
      let ty' := ty.uniquify home names s
      let ann' := ann.uniquify home names ty'.2
      let slots' := if k.walksSlots then slots.uniquify home names ann'.2 else (slots, ann'.2)
      let items' := items.uniquify home names (top && k.onSpine) slots'.2
      (.node k (target.map names.rewrite) ty'.1 ann'.1 slots'.1 items'.1, items'.2) := by
  rw [Expr.uniquify] <;> simp [hk]

lemma Expr.count_plain (hk : k.role = .plain) : (Expr.node k target ty ann slots items).count =
      ty.count + ann.count + (if k.walksSlots then slots.count else 0) + items.count := by
  rw [Expr.count] <;> simp [hk]

lemma Expr.meet_plain (hk : k.role = .plain) (env : BinderEnv) (i : ℕ) (V : Met) :
    (Expr.node k target ty ann slots items).meet env i V =
      items.meet env (i + ty.count + ann.count + if k.walksSlots then slots.count else 0)
        (if k.walksSlots then
          slots.meet env (i + ty.count + ann.count) (ann.meet env (i + ty.count) (ty.meet env i V))
        else ann.meet env (i + ty.count) (ty.meet env i V)) := by rw [Expr.meet] <;> simp [hk]

lemma Expr.good_plain (hk : k.role = .plain) (V : Met) (Γ : Scope) (env : BinderEnv) (i : ℕ) :
    (Expr.node k target ty ann slots items).Good V Γ env i ↔
      (∀ n ∈ target, Γ.find n = env.find n) ∧ ty.Good V Γ env i ∧ ann.Good V Γ env (i + ty.count) ∧
        (if k.walksSlots then slots.Good V Γ env (i + ty.count + ann.count)
          else slots.Inert Γ) ∧
        items.Good V k.slotsUnderBinders Γ Γ env
          (i + ty.count + ann.count + if k.walksSlots then slots.count else 0) := by
  rw [Expr.Good] <;> simp [hk]

lemma NodeKind.eq_lambda (h : k.role = .lambda) : k = .lambda := by
  unfold NodeKind.role at h
  split at h
  · rfl
  all_goals simp at h

lemma NodeKind.Shaped.lambda (h : k.Shaped items) (hk : k.role = .lambda) :
    ∃ n slots body, items = .bind n slots body := by
  cases items with
  | bind n slots body => exact ⟨n, slots, body, rfl⟩
  | _ => simp [NodeKind.Shaped, hk] at h

variable {body : Items ℕ} {n : Name} {paramSlots : Tys ℕ}

lemma Expr.uniquify_lambda (names : UniqueEnv) (top : Bool) (s : Uniquifier) :
    (Expr.node .lambda target ty ann slots (.bind n paramSlots body)).uniquify home names top s =
      let ann' := ann.uniquify home names s
      let domain := ty.uniquifyDomain home names ann'.2
      let paramSlots' := paramSlots.uniquify home names domain.2
      let param := paramSlots'.2.bindName none names n
      let codomain := ty.uniquifyCodomain home param.2.1 param.2.2
      let body' := body.uniquify home param.2.1 false codomain.2
      (.node .lambda (target.map names.rewrite) (ty.withHalves domain.1 codomain.1) ann'.1 slots
        (.bind param.1 paramSlots'.1 body'.1), body'.2) :=
  rfl

lemma Expr.count_lambda : (Expr.node .lambda target ty ann slots (.bind n paramSlots body)).count =
      ann.count + ty.domainCount + paramSlots.count + 1 + ty.codomainCount + body.count :=
  rfl

lemma Expr.meet_lambda (env : BinderEnv) (i : ℕ) (V : Met) :
    (Expr.node .lambda target ty ann slots (.bind n paramSlots body)).meet env i V =
      let domainAt := i + ann.count
      let slotsAt := domainAt + ty.domainCount
      let paramAt := slotsAt + paramSlots.count
      let inner := env.push n paramAt
      let V := paramSlots.meet env slotsAt (ty.meetDomain env domainAt (ann.meet env i V))
      body.meet inner (paramAt + 1 + ty.codomainCount) (ty.meetCodomain inner (paramAt + 1) V) :=
  rfl

lemma Expr.good_lambda (V : Met) (Γ : Scope) (env : BinderEnv) (i : ℕ) :
    (Expr.node .lambda target ty ann slots (.bind n paramSlots body)).Good V Γ env i ↔
      let domainAt := i + ann.count
      let slotsAt := domainAt + ty.domainCount
      let paramAt := slotsAt + paramSlots.count
      let inner := env.push n paramAt
      (∀ n ∈ target, Γ.find n = env.find n) ∧ ann.Good V Γ env i ∧
        ty.GoodHalves V Γ env domainAt inner (paramAt + 1) ∧ paramSlots.Good V Γ env slotsAt ∧
        slots.Inert Γ ∧
        body.Good V false Γ ((n, some paramAt) :: Γ) inner (paramAt + 1 + ty.codomainCount) :=
  Iff.rfl

/-! ## The specification of a node by its role -/

variable (hann : (ann.asWalk home).Spec G bound)

include hann

/-- An alias: its types are walked for their predicates, and its body takes its place. -/
lemma Expr.typeAlias_spec (hk : k.role = .typeAlias) (top : Bool) {body : Expr ℕ} {rest : Items ℕ}
    (hty : (ty.asWalk home).Spec G bound)
    (hslots : (slots.asWalk home).Spec G bound)
    (hbody : (body.asWalk home top).Spec G bound) :
    ((Expr.node k target ty ann slots (.child body rest)).asWalk home top).Spec G bound := by
  refine (hty.drop.both (hann.drop.both (hslots.drop.both hbody))).map
    (fun x => x.2.2.2) (fun _ _ => ?_) ?_ (fun _ _ _ => ?_) (fun _ _ _ => ?_)
    (fun _ _ _ _ _ => ?_) (fun _ => rfl) (fun _ => ?_) fun _ _ hs => hs.2.2.2
  · simp [Expr.uniquify, hk]
  · simp [Expr.count, hk]
    omega
  · simp [Expr.meet, hk]
  · simp [Expr.alpha_alias hk]
  · simp [Expr.Good, hk]
  · exact List.Subset.refl _

variable (htarget : (Walk.target target).Spec G bound)

include htarget

/-- A node walked in order: its type, its annotation, its slots, its items. -/
lemma Expr.plain_spec (hk : k.role = .plain) (top : Bool) (hty : (ty.asWalk home).Spec G bound)
    (hslots : (Walk.ownSlots home k.walksSlots slots).Spec G bound)
    (hitems : (items.asWalk home k.slotsUnderBinders (top && k.onSpine)).Spec G bound) :
    ((Expr.node k target ty ann slots items).asWalk home top).Spec G bound := by
  refine (hty.both (hann.both (hslots.both (hitems.root.both htarget)))).map
    (fun x => .node k x.2.2.2.2 x.1 x.2.1 x.2.2.1 x.2.2.2.1)
    (fun names s => Expr.uniquify_plain hk names top s) ?_ (fun env i V => ?_)
    (fun _ _ _ => ?_) (fun _ _ _ _ _ => ?_) (fun _ => ?_) (fun _ => ?_) fun store x hs => ?_
  · simp [Expr.count_plain hk]
    omega
  · exact Expr.meet_plain hk env i V
  · simp [Expr.alpha_node (hk.trans_ne (by decide)), Expr.Minted]
    tauto
  · simp [Expr.good_plain hk]
    tauto
  · simp [Expr.ownBinders]
  · simp [Expr.quoted]
  · simpa [Expr.Settled, NodeKind.Shaped, hk] using hs

variable (hn : n.isRaw = true) (hslots : (Walk.keepTys slots).Spec G bound)
  (hparam : (paramSlots.asWalk home).Spec G bound)
  (hbody : (body.asWalk home false false).Spec G bound)

include hn hslots hparam hbody

/-- A lambda whose type is a function type: the domain is walked around the parameter and what
stands under the type's binder below it. -/
lemma Expr.lambda_spec {kind : FunKind} {parts : Parts ℕ} {t : Ty ℕ} {m : Option Name}
    {rest : Parts ℕ} (hhalves : parts.halves = some (t, m, rest)) (hm : ∀ x ∈ m, x.Old G.uid₀)
    (top : Bool) (ht : (t.asWalk home).Spec G bound)
    (hrest : (rest.asWalk home false).Spec G bound)
    (hfront : (Walk.keepParts parts.front).Spec G bound) :
    ((Expr.node .lambda target (.mk (.function kind) parts) ann slots
      (.bind n paramSlots body)).asWalk home top).Spec G bound := by
  have hcrossed : ((rest.asWalk home false).rescope (fun around _ => crossBoth around m m)
      fun around _ => around.cross m).Spec G bound :=
    hrest.rescope fun haround _ => MintLog.InScope.cross haround hm
  obtain ⟨hdomain, hcodomain⟩ : (Ty.mk (.function kind) parts).domainCount = t.count ∧
      (Ty.mk (.function kind) parts).codomainCount = rest.count false :=
    Parts.domainCount_of_halves hhalves
  refine (hann.both (ht.both (hparam.both (hfront.both (hslots.both (htarget.both
    ((hcrossed.both hbody).under none hn).root)))))).map
    (fun x => .node .lambda x.2.2.2.2.2.1
      (.mk (.function kind) (Parts.withHalves (some x.2.1) x.2.2.2.2.2.2.2.1 parts)) x.1
      x.2.2.2.2.1 (.bind x.2.2.2.2.2.2.1 x.2.2.1 x.2.2.2.2.2.2.2.2))
    (fun names s => ?_) ?_ (fun env i V => ?_) (fun _ pairs x => ?_) (fun _ _ _ _ _ => ?_)
    (fun _ => ?_) (fun _ => ?_) fun store x hs => ?_
  · simp [Expr.uniquify_lambda, Ty.uniquifyDomain, Ty.uniquifyCodomain,
      Parts.uniquifyHalves_of_halves hhalves]
    rfl
  · simp [Expr.count_lambda, hdomain, hcodomain]
    omega
  · simp [Expr.meet_lambda, hdomain, hcodomain, Ty.meetDomain, Ty.meetCodomain,
      Parts.meetHalves_of_halves hhalves]
  · simp [Expr.alpha_node (k := .lambda) (by decide), Expr.Minted, Ty.Alpha, Ty.Minted,
      Items.Alpha, Items.Minted, NodeKind.slotsUnderBinders]
    have hiff := Parts.alpha_withHalves_iff hhalves pairs x.2.1 x.2.2.2.2.2.2.2.1
    tauto
  · simp [Expr.good_lambda, Ty.GoodHalves, Parts.goodHalves_iff hhalves, hdomain, hcodomain,
      Nat.add_assoc]
    tauto
  · simp [Expr.ownBinders, Items.ownBinders]
  · simp [Expr.quoted, Ty.quoted, Items.quoted, Parts.quoted_withHalves hhalves, List.subset_def]
    tauto
  · simp at hs
    obtain ⟨hann', ht', hparam', hn', hrest', hbody'⟩ := hs
    refine ⟨trivial, by decide, ?_, hann', fun h => Bool.noConfusion h, hn', hparam', hbody'⟩
    exact (Parts.settledHalves_withHalves hhalves ..).mpr ⟨ht', hrest'⟩

/-- A lambda whose type has no halves: the walk does not reach the type. -/
lemma Expr.lambda_spec_unreached {kind : TyKind} {parts : Parts ℕ}
    (hhalves : ∀ k, kind = .function k → parts.halves = none) (top : Bool)
    (hparts : (Walk.keepParts parts).Spec G bound) :
    ((Expr.node .lambda target (.mk kind parts) ann slots
      (.bind n paramSlots body)).asWalk home top).Spec G bound := by
  obtain ⟨⟨hdomain, hcodomain⟩, hmeet, hrun, hwith, hgood, hsettled⟩ :=
    Ty.halves_unreached home hhalves
  refine (hann.both (hparam.both (hparts.both (hslots.both (htarget.both
    (hbody.under none hn).root))))).map
    (fun x => .node .lambda x.2.2.2.2.1 (.mk kind parts) x.1 x.2.2.2.1
      (.bind x.2.2.2.2.2.1 x.2.1 x.2.2.2.2.2.2))
    (fun names s => ?_) ?_ (fun env i V => ?_) (fun _ _ _ => ?_) (fun _ _ _ _ _ => ?_)
    (fun _ => ?_) (fun _ => ?_) fun store x hs => ?_
  · simp [Expr.uniquify_lambda, hrun, hwith]
  · simp [Expr.count_lambda, hdomain, hcodomain]
    omega
  · simp [Expr.meet_lambda, hdomain, hcodomain, hmeet]
  · simp [Expr.alpha_node (k := .lambda) (by decide), Expr.Minted, Ty.Alpha, Ty.Minted,
      Items.Alpha, Items.Minted, NodeKind.slotsUnderBinders]
    tauto
  · simp [Expr.good_lambda, hgood, hdomain, hcodomain]
    tauto
  · simp [Expr.ownBinders, Items.ownBinders]
  · simp [Expr.quoted, Ty.quoted, Items.quoted, List.subset_def]
    tauto
  · simp at hs
    obtain ⟨hann', hparam', hn', hbody'⟩ := hs
    exact ⟨trivial, by decide, hsettled store, hann', fun h => Bool.noConfusion h, hn', hparam',
      hbody'⟩

end Node

mutual

theorem Expr.asWalk_spec {bound : ℕ} (hle : bound ≤ G.base) (top : Bool) : ∀ e : Expr ℕ,
    e.Lowered G.held G.uid₀ bound → (e.asWalk home top).Spec G bound
  | .var n ty ann, ⟨hn, hty, hann⟩ => by
    refine ((ty.asWalk_spec hle hty).both
      ((ann.asWalk_spec hle hann).both (Walk.reference_spec hn))).map
      (fun x => .var x.2.2 x.1 x.2.1) (fun _ _ => rfl) rfl (fun _ _ _ => rfl) (fun _ _ _ => ?_)
      (fun _ _ _ _ _ => ?_) (fun _ => rfl) (fun _ => ?_) fun _ _ hs => ⟨hs.1, hs.2.1⟩
    · simp [Expr.Alpha, Expr.Minted]
      tauto
    · simp [Expr.Good]
      tauto
    · simp [Expr.quoted]
  | .node k target ty ann slots items, ⟨hshape, htarget, hty, hann, hslots, hitems⟩ => by
    have ihty := ty.asWalk_spec hle hty
    have ihhalves := ty.halves_spec hle hty
    have ihann := ann.asWalk_spec hle hann
    have ihslots := slots.asWalk_spec hle hslots
    have ihitems := items.asWalk_spec hle k.slotsUnderBinders (top && k.onSpine) hitems
    have ihchild := items.child_spec hle hitems
    have ihbind := items.bind_spec hle hitems
    have htarget : (Walk.target target).Spec G bound := Walk.target_spec htarget
    cases hk : k.role with
    | plain =>
      exact Expr.plain_spec ihann htarget hk top ihty
        (Walk.ownSlots_spec k.walksSlots hle hslots ihslots) ihitems
    | typeAlias =>
      obtain ⟨body, rfl⟩ := hshape.typeAlias hk
      exact Expr.typeAlias_spec ihann hk top ihty ihslots (ihchild body .nil rfl top)
    | lambda =>
      obtain rfl := NodeKind.eq_lambda hk
      obtain ⟨n, paramSlots, body, rfl⟩ := hshape.lambda hk
      obtain ⟨kind, parts⟩ := ty
      obtain ⟨ihparam, ihbody⟩ := ihbind n paramSlots body rfl
      have ihkept := Walk.keepTys_spec hle hslots
      by_cases hreached : ∃ f half, kind = .function f ∧ parts.halves = some half
      · obtain ⟨f, ⟨t, m, rest⟩, rfl, hhalves⟩ := hreached
        obtain ⟨hfront, -, hm, -⟩ := Parts.Lowered.halves hhalves hty
        obtain ⟨iht, ihrest⟩ := ihhalves _ _ rfl t m rest hhalves
        exact Expr.lambda_spec ihann htarget hitems.1 ihkept ihparam (ihbody false false) hhalves hm
          top iht ihrest (Walk.keepParts_spec hle hfront)
      · refine Expr.lambda_spec_unreached ihann htarget hitems.1 ihkept ihparam
          (ihbody false false) (fun f hf => ?_) top (Walk.keepParts_spec hle hty)
        exact Option.eq_none_iff_forall_ne_some.mpr fun half h => hreached ⟨f, half, hf, h⟩
termination_by structural x => x

theorem Items.asWalk_spec {bound : ℕ} (hle : bound ≤ G.base) (under top : Bool) : ∀ is : Items ℕ,
    is.Lowered G.held G.uid₀ bound → (is.asWalk home under top).Spec G bound
  | .nil, _ =>
    .still (fun _ => .nil) (fun _ _ => rfl) rfl (fun _ _ _ => rfl)
      (fun _ _ _ _ _ _ _ _ _ _ _ _ _ _ _ _ _ => and_self_iff) (fun _ => rfl)
      (fun _ _ h => absurd h List.not_mem_nil) fun _ _ => trivial
  | .child e rest, ⟨he, hrest⟩ =>
    ((e.asWalk_spec hle (top && rest.isNil) he).both (rest.asWalk_spec hle under top hrest)).map
      (fun x => .child x.1 x.2) (fun _ _ => rfl) rfl (fun _ _ _ => rfl)
      (fun _ _ _ => and_and_and_comm) (fun _ _ _ _ _ => Iff.rfl) (fun _ => rfl)
      (fun _ => List.Subset.refl _) fun _ _ hs => hs
  | .bind n slots rest, ⟨hn, hslots, hrest⟩ => by
    have ihslots : ((slots.asWalk home).rescope
        (fun around pairs => if under then pairs else around)
        fun around Γ => if under then Γ else around).Spec G bound := by
      refine (slots.asWalk_spec hle hslots).rescope fun haround hΓ => ?_
      cases under with
      | true => exact hΓ
      | false => exact haround
    refine (ihslots.both ((rest.asWalk_spec hle under top hrest).under
      (if top then home else none) hn)).map (fun x => .bind x.2.1 x.1 x.2.2) (fun _ _ => rfl)
      (Nat.add_assoc ..) (fun _ _ _ => rfl) (fun _ _ _ => ?_) (fun _ _ _ _ _ => Iff.rfl)
      (fun _ => rfl) (fun _ => List.Subset.refl _) fun _ _ hs => ⟨hs.2.1, hs.1, hs.2.2⟩
    simp [Items.Alpha, Items.Minted]
    tauto
  | .scope inner rest, ⟨hinner, hrest⟩ =>
    ((inner.asWalk_spec hle under top hinner).both (rest.asWalk_spec hle under top hrest)).map
      (fun x => .scope x.1 x.2) (fun _ _ => rfl) rfl (fun _ _ _ => rfl)
      (fun _ _ _ => and_and_and_comm) (fun _ _ _ _ _ => Iff.rfl) (fun _ => rfl)
      (fun _ => List.Subset.refl _) fun _ _ hs => hs
termination_by structural x => x

/-- The specification of the first child, for a node that stands for it. -/
theorem Items.child_spec {bound : ℕ} (hle : bound ≤ G.base) : ∀ is : Items ℕ,
    is.Lowered G.held G.uid₀ bound → ∀ e rest, is = .child e rest → ∀ top,
      (e.asWalk home top).Spec G bound
  | .child e _, h, _, _, rfl, top => e.asWalk_spec hle top h.1
termination_by structural x => x

/-- The specifications of a first binder's slots and of what it scopes over. -/
theorem Items.bind_spec {bound : ℕ} (hle : bound ≤ G.base) : ∀ is : Items ℕ,
    is.Lowered G.held G.uid₀ bound → ∀ n slots rest, is = .bind n slots rest →
      (slots.asWalk home).Spec G bound ∧ ∀ under top, (rest.asWalk home under top).Spec G bound
  | .bind _ slots rest, h, _, _, _, rfl =>
    ⟨slots.asWalk_spec hle h.2.1, fun under top => rest.asWalk_spec hle under top h.2.2⟩
termination_by structural x => x

theorem Ty.asWalk_spec {bound : ℕ} (hle : bound ≤ G.base) : ∀ t : Ty ℕ,
    t.Lowered G.held G.uid₀ bound → (t.asWalk home).Spec G bound
  | .mk k parts, h =>
    (parts.asWalk_spec hle (k == .refinement) h).map (fun x => .mk k x) (fun _ _ => rfl) rfl
      (fun _ _ _ => rfl) (fun _ _ _ => and_congr_left fun _ => and_iff_right rfl)
      (fun _ _ _ _ _ => Iff.rfl) (fun _ => rfl) (fun _ => List.Subset.refl _) fun _ _ hs => hs
termination_by structural x => x

theorem Parts.asWalk_spec {bound : ℕ} (hle : bound ≤ G.base) (refined : Bool) : ∀ ps : Parts ℕ,
    ps.Lowered G.held G.uid₀ bound → (ps.asWalk home refined).Spec G bound
  | .nil, _ =>
    .still (fun _ => .nil) (fun _ _ => rfl) rfl (fun _ _ _ => rfl)
      (fun _ _ _ _ _ _ _ _ _ _ _ _ _ _ _ _ _ => and_self_iff) (fun _ => rfl)
      (fun _ _ h => absurd h List.not_mem_nil) fun _ _ => trivial
  | .type t rest, ⟨ht, hrest⟩ => by
    have iht := t.asWalk_spec hle ht
    have ihrest := rest.asWalk_spec hle refined hrest
    cases refined with
    | true =>
      refine (ihrest.both iht).map (fun x => .type x.2 x.1) (fun _ _ => rfl) (Nat.add_comm ..)
        (fun _ _ _ => rfl) (fun _ _ _ => ?_) (fun _ _ _ _ _ => and_comm) (fun _ => rfl)
        (fun _ => ?_) fun _ _ hs => hs.symm
      · exact and_and_and_comm.trans and_comm
      · simp [Parts.quoted]
    | false =>
      exact (iht.both ihrest).map (fun x => .type x.1 x.2) (fun _ _ => rfl) rfl (fun _ _ _ => rfl)
        (fun _ _ _ => and_and_and_comm) (fun _ _ _ _ _ => Iff.rfl) (fun _ => rfl)
        (fun _ => List.Subset.refl _) fun _ _ hs => hs
  | .cross n rest, ⟨hn, hrest⟩ => by
    have ihrest : ((rest.asWalk home refined).rescope (fun _ pairs => crossBoth pairs n n)
        fun _ Γ => Γ.cross n).Spec G bound :=
      (rest.asWalk_spec hle refined hrest).rescope fun _ hΓ => MintLog.InScope.cross hΓ hn
    exact ihrest.map (fun x => .cross n x) (fun _ _ => rfl) rfl (fun _ _ _ => rfl)
      (fun _ _ _ => and_congr_left fun _ => and_iff_right rfl) (fun _ _ _ _ _ => Iff.rfl)
      (fun _ => rfl) (fun _ => List.Subset.refl _) fun _ _ hs => hs
  | .witness w rest, hrest =>
    (rest.asWalk_spec hle refined hrest).map (fun x => .witness w x) (fun _ _ => rfl) rfl
      (fun _ _ _ => rfl) (fun _ _ _ => and_congr_left fun _ => and_iff_right rfl)
      (fun _ _ _ _ _ => Iff.rfl) (fun _ => rfl) (fun _ => List.Subset.refl _) fun _ _ hs => hs
  | .quote b a e rest, ⟨ha, he, hin, hrest⟩ => by
    have ihrest := rest.asWalk_spec hle refined hrest
    cases refined with
    | true =>
      have ihe := e.asWalk_spec (ha.le.trans hle) false hin
      refine ((Walk.predicate_spec he ha ihe).both ihrest).map
        (fun x => .quote b x.1.1 x.1.2 x.2) (fun names s => ?_) rfl (fun _ _ _ => rfl)
        (fun _ _ _ => ?_) (fun _ _ _ _ _ => Iff.rfl) (fun _ => rfl)
        (fun _ => List.Subset.refl _) fun _ _ hs => ⟨fun _ => hs.1, hs.2⟩
      · simp [Parts.uniquify]
        cases s.memo.lookup a <;> rfl
      · simp [Parts.Alpha, Parts.Minted]
        tauto
    | false =>
      refine ((Walk.keepQuoted_spec hle ha hin).both ihrest).map
        (fun x => .quote b x.1.1 x.1.2 x.2) (fun _ _ => rfl) ?_ (fun _ _ _ => rfl)
        (fun _ _ _ => ?_) (fun _ _ _ _ _ => Iff.rfl) (fun _ => rfl)
        (fun _ => List.Subset.refl _) fun _ _ hs => ⟨fun h => Bool.noConfusion h, hs.2⟩
      · rfl
      · simp [Parts.Alpha, Parts.Minted]
        tauto
termination_by structural x => x

theorem Ty.halves_spec {bound : ℕ} (hle : bound ≤ G.base) : ∀ ty : Ty ℕ,
    ty.Lowered G.held G.uid₀ bound → ∀ kind ps, ty = .mk kind ps →
      ∀ t n rest, ps.halves = some (t, n, rest) → (t.asWalk home).Spec G bound ∧
        (rest.asWalk home false).Spec G bound
  | .mk _ parts, h, _, _, rfl => parts.halves_spec hle h
termination_by structural x => x

/-- The specifications of the halves of a function type. -/
theorem Parts.halves_spec {bound : ℕ} (hle : bound ≤ G.base) : ∀ ps : Parts ℕ,
    ps.Lowered G.held G.uid₀ bound → ∀ t n rest, ps.halves = some (t, n, rest) →
      (t.asWalk home).Spec G bound ∧ (rest.asWalk home false).Spec G bound
  | .type t (.cross _ rest), h, _, _, _, rfl =>
    ⟨t.asWalk_spec hle h.1, rest.asWalk_spec hle false h.2.2⟩
  | .type _ (.type t rest), h, _, _, _, hps => (Parts.type t rest).halves_spec hle h.2 _ _ _ hps
  | .type _ (.witness w rest), h, _, _, _, hps =>
    (Parts.witness w rest).halves_spec hle h.2 _ _ _ hps
  | .witness _ rest, h, _, _, _, hps => rest.halves_spec hle h _ _ _ hps
termination_by structural x => x

theorem Tys.asWalk_spec {bound : ℕ} (hle : bound ≤ G.base) : ∀ ts : Tys ℕ,
    ts.Lowered G.held G.uid₀ bound → (ts.asWalk home).Spec G bound
  | .nil, _ =>
    .still (fun _ => .nil) (fun _ _ => rfl) rfl (fun _ _ _ => rfl)
      (fun _ _ _ _ _ _ _ _ _ _ _ _ _ _ _ _ _ => and_self_iff) (fun _ => rfl)
      (fun _ _ h => absurd h List.not_mem_nil) fun _ _ => trivial
  | .cons t rest, ⟨ht, hrest⟩ =>
    ((t.asWalk_spec hle ht).both (rest.asWalk_spec hle hrest)).map (fun x => .cons x.1 x.2)
      (fun _ _ => rfl) rfl (fun _ _ _ => rfl) (fun _ _ _ => and_and_and_comm)
      (fun _ _ _ _ _ => Iff.rfl) (fun _ => rfl) (fun _ => List.Subset.refl _) fun _ _ hs => hs
termination_by structural x => x

end

end Cambra.Ir
