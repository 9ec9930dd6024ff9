import Cambra.Ir.UniquifyTree

/-!
# What uniquification preserves

A run from a fresh state returns a tree in which every binder is minted and told apart, equal up to
binders to the tree it got, exactly when the scoping rule and the walk agree on every occurrence
(`runIn_preserves_iff`).

The result is settled (`Cambra.Ir.UniquifyWalk`), and a walk of a settled tree with nothing in hand
changes nothing: it leaves the minted binders, and rebuilds a predicate as what it was
(`Expr.uniquify_settled`).  So a second run returns what it gets, up to the allocations it makes for
the predicates.
-/

namespace Cambra.Ir

variable {G : Ground} {held store : ℕ → Expr ℕ} {uid₀ base bound : ℕ} {home : Option Home}
  {s : Uniquifier}

/-! ## A walk of a settled tree -/

lemma UniqueEnv.rewrite_nil (n : Name) : UniqueEnv.rewrite [] n = n := by cases n <;> rfl

lemma Uniquifier.bindName_of_minted (s : Uniquifier) (home : Option Home) (names : UniqueEnv)
    {n : Name} (hn : n.isRaw = false) : s.bindName home names n = (n, names, s) := by
  cases n with
  | raw _ => exact Bool.noConfusion hn
  | _ => rfl

/-- What the walk has rebuilt is what the store holds, up to allocations. -/
def Uniquifier.Recalls (store : ℕ → Expr ℕ) (s : Uniquifier) : Prop :=
  ∀ a done, s.memo.lookup a = some done → done.2.forget = (store a).forget

lemma Uniquifier.Recalls.install {e : Expr ℕ} {a : ℕ} (h : s.Recalls store)
    (he : e.forget = (store a).forget) : (s.install a e).2.Recalls store := by
  intro b done hdone
  change List.lookup b ((a, (s.next, e)) :: s.memo) = some done at hdone
  by_cases hb : b = a
  · subst hb
    rw [List.lookup_cons_self, Option.some.injEq] at hdone
    exact hdone ▸ he
  · rw [lookup_cons_of_ne hb] at hdone
    exact h b done hdone

/-- A walk that returns `x`, up to allocations, and goes on recalling the store. -/
def Keeps {T U : Type} (store : ℕ → Expr ℕ) (forget : T → U) (x : U)
    (run : Uniquifier → T × Uniquifier) : Prop :=
  ∀ s, s.Recalls store → forget (run s).1 = x ∧ (run s).2.Recalls store

lemma Parts.forget_withHalves {p : Parts ℕ} {t t' : Ty ℕ} {n : Option Name} {rest rest' : Parts ℕ}
    (h : p.halves = some (t, n, rest)) (ht : t'.forget = t.forget)
    (hrest : rest'.forget = rest.forget) :
    (Parts.withHalves (some t') rest' p).forget = p.forget := by
  fun_induction Parts.halves p <;> simp_all [Parts.withHalves, Parts.forget]

section Node

variable {k : NodeKind} {target : Option Name} {ty : Ty ℕ} {ann slots : Tys ℕ} {items : Items ℕ}

lemma target_map_rewrite_nil (target : Option Name) :
    target.map (UniqueEnv.rewrite []) = target := by cases target <;> simp [UniqueEnv.rewrite_nil]

lemma Expr.plain_keeps (hk : k.role = .plain) (top : Bool)
    (hty : Keeps store Ty.forget ty.forget (ty.uniquify home []))
    (hann : Keeps store Tys.forget ann.forget (ann.uniquify home []))
    (hslots : k.walksSlots = true → Keeps store Tys.forget slots.forget (slots.uniquify home []))
    (hitems : Keeps store Items.forget items.forget (items.uniquify home [] (top && k.onSpine))) :
    Keeps store Expr.forget (Expr.node k target ty ann slots items).forget
      ((Expr.node k target ty ann slots items).uniquify home [] top) := by
  intro s hs
  obtain ⟨hty', hs₁⟩ := hty s hs
  obtain ⟨hann', hs₂⟩ := hann _ hs₁
  simp only [Expr.uniquify_plain hk, Expr.forget, target_map_rewrite_nil, hty', hann']
  cases hw : k.walksSlots with
  | true =>
    obtain ⟨hslots', hs₃⟩ := hslots hw _ hs₂
    obtain ⟨hitems', hs₄⟩ := hitems _ hs₃
    exact ⟨by simp [hslots', hitems'], hs₄⟩
  | false =>
    obtain ⟨hitems', hs₃⟩ := hitems _ hs₂
    exact ⟨by simp [hitems'], hs₃⟩

lemma Expr.lambda_keeps {kind : TyKind} {p : Parts ℕ} (top : Bool) {n : Name}
    {paramSlots : Tys ℕ} {body : Items ℕ} (hn : n.isRaw = false)
    (hhalves : ∀ f, kind = .function f → ∀ t m rest, p.halves = some (t, m, rest) →
      Keeps store Ty.forget t.forget (t.uniquify home []) ∧
        Keeps store Parts.forget rest.forget (rest.uniquify home [] false))
    (hann : Keeps store Tys.forget ann.forget (ann.uniquify home []))
    (hparam : Keeps store Tys.forget paramSlots.forget (paramSlots.uniquify home []))
    (hbody : Keeps store Items.forget body.forget (body.uniquify home [] false)) :
    Keeps store Expr.forget
      (Expr.node .lambda target (.mk kind p) ann slots (.bind n paramSlots body)).forget
      ((Expr.node .lambda target (.mk kind p) ann slots (.bind n paramSlots body)).uniquify home []
        top) := by
  intro s hs
  obtain ⟨hann', hs₁⟩ := hann s hs
  simp only [Expr.uniquify_lambda, Uniquifier.bindName_of_minted _ _ _ hn, Expr.forget,
    Items.forget, target_map_rewrite_nil, hann']
  by_cases hreached : ∃ f half, kind = .function f ∧ p.halves = some half
  · obtain ⟨f, ⟨t, m, rest⟩, rfl, heq⟩ := hreached
    obtain ⟨ht, hrest⟩ := hhalves f rfl t m rest heq
    obtain ⟨ht', hs₂⟩ := ht _ hs₁
    obtain ⟨hparam', hs₃⟩ := hparam _ hs₂
    obtain ⟨hrest', hs₄⟩ := hrest _ hs₃
    obtain ⟨hbody', hs₅⟩ := hbody _ hs₄
    simp only [Ty.uniquifyDomain, Ty.uniquifyCodomain, Parts.uniquifyHalves_of_halves heq,
      Ty.withHalves, Ty.forget, Parts.forget_withHalves heq ht' hrest', hparam', hbody', true_and]
    exact hs₅
  · have hnone : ∀ f, kind = .function f → p.halves = none := fun f hf =>
      Option.eq_none_iff_forall_ne_some.mpr fun half hhalf => hreached ⟨f, half, hf, hhalf⟩
    obtain ⟨-, -, hrun, hwith, -, -⟩ := Ty.halves_unreached home hnone
    obtain ⟨hparam', hs₂⟩ := hparam _ hs₁
    obtain ⟨hbody', hs₃⟩ := hbody _ hs₂
    simp only [hrun, hwith, hparam', hbody', true_and]
    exact hs₃

end Node

mutual

/-- A settled term is returned as it is. -/
theorem Expr.uniquify_settled (top : Bool) : ∀ e : Expr ℕ, e.Settled store →
    Keeps store Expr.forget e.forget (e.uniquify home [] top)
  | .var n ty ann, h => by
    intro s hs
    obtain ⟨hty, hs₁⟩ := ty.uniquify_settled h.1 s hs
    obtain ⟨hann, hs₂⟩ := ann.uniquify_settled h.2 _ hs₁
    refine ⟨?_, hs₂⟩
    simp [Expr.uniquify, Expr.forget, UniqueEnv.rewrite_nil, hty, hann]
  | .node k target ty ann slots items, ⟨hshape, hrole, hty, hann, hslots, hitems⟩ => by
    have ihty := ty.uniquify_settled
    have ihhalves := ty.halves_settled
    have ihann := ann.uniquify_settled hann
    have ihslots := fun h => slots.uniquify_settled (hslots h)
    have ihitems := items.uniquify_settled (top && k.onSpine) hitems
    have ihbind := items.bind_settled hitems
    cases hk : k.role with
    | plain =>
      rw [if_neg (by simp [hk])] at hty
      exact Expr.plain_keeps hk top (ihty hty) ihann ihslots ihitems
    | typeAlias => exact absurd hk hrole
    | lambda =>
      obtain rfl := NodeKind.eq_lambda hk
      obtain ⟨n, paramSlots, body, rfl⟩ := hshape.lambda hk
      obtain ⟨hn, ihparam, ihbody⟩ := ihbind n paramSlots body rfl
      obtain ⟨kind, p⟩ := ty
      rw [if_pos hk] at hty
      exact Expr.lambda_keeps top hn (fun f hf => ihhalves hty f p (by rw [hf])) ihann ihparam
        (ihbody false)
termination_by structural x => x

theorem Items.uniquify_settled (top : Bool) : ∀ is : Items ℕ, is.Settled store →
    Keeps store Items.forget is.forget (is.uniquify home [] top)
  | .nil, _ => fun _ hs => ⟨rfl, hs⟩
  | .child e rest, h => by
    intro s hs
    obtain ⟨he, hs₁⟩ := e.uniquify_settled (top && rest.isNil) h.1 s hs
    obtain ⟨hrest, hs₂⟩ := rest.uniquify_settled top h.2 _ hs₁
    exact ⟨congrArg₂ Items.child he hrest, hs₂⟩
  | .bind n slots rest, ⟨hn, hslots, hrest⟩ => by
    intro s hs
    obtain ⟨hslots', hs₁⟩ := slots.uniquify_settled hslots s hs
    obtain ⟨hrest', hs₂⟩ := rest.uniquify_settled top hrest _ hs₁
    simp only [Items.uniquify, Uniquifier.bindName_of_minted _ _ _ hn, Items.forget, hslots',
      hrest', true_and]
    exact hs₂
  | .scope inner rest, h => by
    intro s hs
    obtain ⟨hinner, hs₁⟩ := inner.uniquify_settled top h.1 s hs
    obtain ⟨hrest, hs₂⟩ := rest.uniquify_settled top h.2 _ hs₁
    exact ⟨congrArg₂ Items.scope hinner hrest, hs₂⟩
termination_by structural x => x

/-- A first binder is minted, and its slots and what it scopes over are returned as they are. -/
theorem Items.bind_settled : ∀ is : Items ℕ, is.Settled store → ∀ n slots rest,
    is = .bind n slots rest → n.isRaw = false ∧
      Keeps store Tys.forget slots.forget (slots.uniquify home []) ∧
      ∀ top, Keeps store Items.forget rest.forget (rest.uniquify home [] top)
  | .bind _ slots rest, h, _, _, _, rfl =>
    ⟨h.1, slots.uniquify_settled h.2.1, fun top => rest.uniquify_settled top h.2.2⟩
termination_by structural x => x

theorem Ty.uniquify_settled : ∀ t : Ty ℕ, t.Settled store →
    Keeps store Ty.forget t.forget (t.uniquify home [])
  | .mk k parts, h => by
    intro s hs
    obtain ⟨hparts, hs₁⟩ := parts.uniquify_settled (k == .refinement) h s hs
    exact ⟨congrArg (Ty.mk k) hparts, hs₁⟩
termination_by structural x => x

theorem Parts.uniquify_settled (refined : Bool) : ∀ ps : Parts ℕ, ps.Settled store refined →
    Keeps store Parts.forget ps.forget (ps.uniquify home [] refined)
  | .nil, _ => fun _ hs => ⟨rfl, hs⟩
  | .type t rest, h => by
    intro s hs
    cases refined with
    | true =>
      obtain ⟨hrest, hs₁⟩ := rest.uniquify_settled true h.2 s hs
      obtain ⟨ht, hs₂⟩ := t.uniquify_settled h.1 _ hs₁
      exact ⟨congrArg₂ Parts.type ht hrest, hs₂⟩
    | false =>
      obtain ⟨ht, hs₁⟩ := t.uniquify_settled h.1 s hs
      obtain ⟨hrest, hs₂⟩ := rest.uniquify_settled false h.2 _ hs₁
      exact ⟨congrArg₂ Parts.type ht hrest, hs₂⟩
  | .cross n rest, h => by
    intro s hs
    obtain ⟨hrest, hs₁⟩ := rest.uniquify_settled refined h s hs
    exact ⟨congrArg (Parts.cross n) hrest, hs₁⟩
  | .witness w rest, h => by
    intro s hs
    obtain ⟨hrest, hs₁⟩ := rest.uniquify_settled refined h s hs
    exact ⟨congrArg (Parts.witness w) hrest, hs₁⟩
  | .quote b a e rest, ⟨hquoted, hrest⟩ => by
    intro s hs
    cases refined with
    | true =>
      obtain ⟨hstored, he⟩ := hquoted rfl
      cases hmemo : s.memo.lookup a with
      | some done =>
        obtain ⟨hrest', hs₁⟩ := rest.uniquify_settled true hrest s hs
        simp only [Parts.uniquify, hmemo, if_true, Parts.forget, hrest', hs a done hmemo, hstored,
          true_and]
        exact hs₁
      | none =>
        obtain ⟨he', hs₁⟩ := e.uniquify_settled false he s hs
        obtain ⟨hrest', hs₂⟩ := rest.uniquify_settled true hrest _
          (hs₁.install (he'.trans (congrArg Expr.forget hstored.symm)))
        simp only [Parts.uniquify, hmemo, if_true, Parts.forget, hrest']
        exact ⟨congrArg (Parts.quote b () · rest.forget) he', hs₂⟩
    | false =>
      obtain ⟨hrest', hs₁⟩ := rest.uniquify_settled false hrest s hs
      exact ⟨congrArg (Parts.quote b () e.forget) hrest', hs₁⟩
termination_by structural x => x

/-- The halves of a settled lambda's type are returned as they are. -/
theorem Ty.halves_settled : ∀ ty : Ty ℕ, ty.SettledHalves store → ∀ f p,
    ty = .mk (.function f) p → ∀ t n rest, p.halves = some (t, n, rest) →
      Keeps store Ty.forget t.forget (t.uniquify home []) ∧
        Keeps store Parts.forget rest.forget (rest.uniquify home [] false)
  | .mk (.function _) parts, h, _, _, rfl => parts.halves_settled h
termination_by structural x => x

theorem Parts.halves_settled : ∀ p : Parts ℕ, p.SettledHalves store →
    ∀ t n rest, p.halves = some (t, n, rest) → Keeps store Ty.forget t.forget (t.uniquify home []) ∧
        Keeps store Parts.forget rest.forget (rest.uniquify home [] false)
  | .type t (.cross _ rest), h, _, _, _, rfl =>
    ⟨t.uniquify_settled h.1, rest.uniquify_settled false h.2⟩
  | .type _ (.type t rest), h, _, _, _, hp => (Parts.type t rest).halves_settled h _ _ _ hp
  | .type _ (.witness w rest), h, _, _, _, hp =>
    (Parts.witness w rest).halves_settled h _ _ _ hp
  | .witness _ rest, h, _, _, _, hp => rest.halves_settled h _ _ _ hp
termination_by structural x => x

theorem Tys.uniquify_settled : ∀ ts : Tys ℕ, ts.Settled store →
    Keeps store Tys.forget ts.forget (ts.uniquify home [])
  | .nil, _ => fun _ hs => ⟨rfl, hs⟩
  | .cons t rest, h => by
    intro s hs
    obtain ⟨ht, hs₁⟩ := t.uniquify_settled h.1 s hs
    obtain ⟨hrest, hs₂⟩ := rest.uniquify_settled h.2 _ hs₁
    exact ⟨congrArg₂ Tys.cons ht hrest, hs₂⟩
termination_by structural x => x

end

/-! ## Minted binders are told apart -/

/-- A tree whose binders are minted declares no raw ones, and neither does what it quotes. -/
lemma minted_not_raw : (∀ e : Expr ℕ, e.Minted → (∀ n ∈ e.ownBinders, n.isRaw = false) ∧
      ∀ a names, (a, names) ∈ e.quoted → ∀ n ∈ names, n.isRaw = false) ∧
    (∀ i : Items ℕ, i.Minted → (∀ n ∈ i.ownBinders, n.isRaw = false) ∧
      ∀ a names, (a, names) ∈ i.quoted → ∀ n ∈ names, n.isRaw = false) ∧
    (∀ t : Ty ℕ, t.Minted → ∀ a names, (a, names) ∈ t.quoted → ∀ n ∈ names, n.isRaw = false) ∧
    (∀ p : Parts ℕ, p.Minted → ∀ a names, (a, names) ∈ p.quoted → ∀ n ∈ names, n.isRaw = false) ∧
    ∀ ts : Tys ℕ, ts.Minted → ∀ a names, (a, names) ∈ ts.quoted → ∀ n ∈ names, n.isRaw = false := by
  apply trees_induction <;>
    grind [Expr.Minted, Items.Minted, Ty.Minted, Parts.Minted, Tys.Minted, Expr.ownBinders,
      Items.ownBinders, Expr.quoted, Items.quoted, Ty.quoted, Parts.quoted, Tys.quoted]

/-- A quotation in a tree whose binders are minted: of an allocation the walk made, or one that
declares nothing. -/
lemma Known.of_minted {next : ℕ} {q : ℕ × List Name} (h : Known base next store q)
    (hminted : ∀ n ∈ q.2, n.isRaw = false) :
    (base ≤ q.1 ∧ q.1 < next) ∧ q.2 = (store q.1).ownBinders ∨ q.1 < base ∧ q.2 = [] := by
  rcases h with h | ⟨hlt, hraw⟩
  · exact .inl h
  · refine .inr ⟨hlt, List.eq_nil_iff_forall_not_mem.mpr fun n hn => ?_⟩
    exact Bool.noConfusion ((hraw n hn).symm.trans (hminted n hn))

lemma Walk.Returns.distinctBinders {e : Expr ℕ} {top : Bool} {env : BinderEnv} {k : ℕ} {V : Met}
    {g g' : Ghost} {out : Expr ℕ × Uniquifier}
    (r : (e.asWalk home top).Returns G bound env k V g s g' out)
    (hminted : out.1.Minted) : out.1.DistinctBinders := by
  have hknown : ∀ q ∈ out.1.quoted, (G.base ≤ q.1 ∧ q.1 < out.2.next) ∧
      q.2 = (g'.store q.1).ownBinders ∨ q.1 < G.base ∧ q.2 = [] :=
    fun q hq => (r.quoted q hq).of_minted ((minted_not_raw.1 _ hminted).2 _ _ hq)
  refine ⟨r.nodup, fun q hq => ?_, fun q hq => ?_, fun q hq q' hq' heq => ?_,
    fun q hq q' hq' hne => ?_⟩
  · rcases hknown q hq with ⟨⟨hle, hlt⟩, h⟩ | ⟨-, h⟩ <;> rw [h]
    · exact r.sound.nodup _ hle hlt
    · exact List.nodup_nil
  · rcases hknown q hq with ⟨⟨hle, hlt⟩, h⟩ | ⟨-, h⟩ <;> rw [h]
    · exact r.apart _ hle hlt
    · exact List.disjoint_nil_right _
  · rcases hknown q hq with ⟨⟨hle, -⟩, h⟩ | ⟨hlt, h⟩ <;>
      rcases hknown q' hq' with ⟨⟨hle', -⟩, h'⟩ | ⟨hlt', h'⟩
    · rw [h, h', heq]
    · omega
    · omega
    · rw [h, h']
  · rcases hknown q hq with ⟨⟨hle, hlt⟩, h⟩ | ⟨-, h⟩
    · rcases hknown q' hq' with ⟨⟨hle', hlt'⟩, h'⟩ | ⟨-, h'⟩
      · rw [h, h']
        exact r.sound.apart _ _ hle hlt hle' hlt' hne
      · rw [h']
        exact List.disjoint_nil_right _
    · rw [h]
      exact List.disjoint_nil_left _

/-! ## A run -/

/-- The state a run starts from is sound: nothing is minted, met or rebuilt. -/
lemma Uniquifier.Sound.start (G : Ground) :
    (⟨G.uid₀, G.base, []⟩ : Uniquifier).Sound G [] ⟨[], G.held⟩ 0 where
  consistent := ⟨fun _ h => absurd h List.not_mem_nil, fun _ h => absurd h List.not_mem_nil⟩
  passed _ h := absurd h List.not_mem_nil
  uid_le := le_rfl
  base_le := le_rfl
  missing _ := ⟨fun _ => rfl, fun _ => rfl⟩
  rebuilt _ _ h := nomatch h
  nodup _ hle hlt := absurd hlt (not_lt.mpr hle)
  minted _ hle hlt := absurd hlt (not_lt.mpr hle)
  apart _ _ hle hlt := absurd hlt (not_lt.mpr hle)

/-- What a run is to preserve of the tree it gets: the result is the same up to the names of its
binders, every binder is minted, no two share a name, and a further run changes nothing. -/
structure Preserved (e out : Expr ℕ) : Prop where
  alpha : e.Alpha [] out
  minted : out.Minted
  distinct : out.DistinctBinders
  idempotent : ∀ home s, (runIn out [] home s).1.forget = out.forget

/-- **Uniquification preserves binding exactly where the scoping rule and its walk agree.**  The
tree is any that lowering builds, shadowed and repeated binders included; `Good` says that every
occurrence in it belongs, by the scoping rule, to the binder the walk has innermost where it
resolves the occurrence, and that what the walk does not reach declares nothing and belongs to no
binder. -/
theorem runIn_preserves_iff {e : Expr ℕ} (h : e.Lowered held uid₀ base) (home : Option Home)
    (memo : List (ℕ × Rc)) :
    Preserved e (runIn e [] home ⟨uid₀, base, memo⟩).1 ↔ e.Good (e.meet [] 0 []) [] [] 0 := by
  have hspec : (e.asWalk home true).Spec ⟨held, uid₀, base⟩ base := e.asWalk_spec le_rfl true h
  obtain ⟨g, r⟩ := hspec (.start _) .nil
  have hjudged := r.judged (.refl _) (List.Subset.refl _) r.sound.consistent .nil .nil
  refine ⟨fun hout => hjudged.mp ⟨hout.alpha, hout.minted⟩, fun hgood => ?_⟩
  obtain ⟨halpha, hminted⟩ := hjudged.mpr hgood
  refine ⟨halpha, hminted, r.distinctBinders hminted, fun home' s => ?_⟩
  have hsettled := r.settled g.store fun _ _ _ => rfl
  exact (Expr.uniquify_settled true _ hsettled { s with memo := [] }
    fun _ _ hdone => nomatch hdone).1

section Shadowing

/-- A flag, a variable of a type that is still to be inferred. -/
def flag (f : Name) : Expr ℕ := .var f (.mk .hole .nil) .nil

/-- `Int` refined by a flag. -/
def intWhere (f : Name) (a : ℕ) : Tys ℕ :=
  .cons (.mk .refinement (.type (.mk (.base "Int") .nil) (.quote true a (flag f) .nil))) .nil

/-- A constant. -/
def const (text : String) : Expr ℕ := .node (.lit text) none (.mk .hole .nil) .nil .nil .nil

/-- `let n : slots = bound in body`. -/
def letBinding (n : Name) (slots : Tys ℕ) (bound body : Expr ℕ) : Expr ℕ :=
  .node .letIn none (.mk .hole .nil) .nil .nil (.child bound (.bind n slots (.child body .nil)))

/-- `let outer = true in let inner : {Int | ref} = 1 in inner`. -/
def nestedLets (outer inner ref : Name) (a : ℕ) : Expr ℕ := letBinding outer .nil (const "true")
    (letBinding inner (intWhere ref a) (const "1") (flag inner))

/-- A binding's annotation reads the binder around it, whatever name the binding itself has. -/
theorem runIn_preserves_nestedLets : Preserved (nestedLets (.raw "f") (.raw "f") (.raw "f") 0)
      (runIn (nestedLets (.raw "f") (.raw "f") (.raw "f") 0) [] none ⟨0, 1, []⟩).1 := by
  have hlowered : (nestedLets (.raw "f") (.raw "f") (.raw "f") 0).Lowered
      (fun _ => flag (.raw "f")) 0 1 := by
    simp [nestedLets, letBinding, intWhere, const, flag, Expr.Lowered, Items.Lowered, Ty.Lowered,
      Parts.Lowered, Tys.Lowered, NodeKind.Shaped, NodeKind.role, Name.Old, Name.isRaw]
  refine (runIn_preserves_iff hlowered none []).mpr ?_
  have hlet : NodeKind.role .letIn = .plain := rfl
  have hlit (text : String) : NodeKind.role (.lit text) = .plain := rfl
  simp [nestedLets, letBinding, intWhere, const, flag, Expr.good_plain hlet,
    Expr.good_plain (hlit _), Expr.meet_plain hlet, Expr.meet_plain (hlit _),
    Expr.count_plain (hlit _), Expr.Good, Items.Good, Ty.Good, Parts.Good, Tys.Good, Expr.meet,
    Items.meet, Ty.meet, Parts.meet, Tys.meet, Expr.count, Items.count, Ty.count, Parts.count,
    Tys.count, NodeKind.walksSlots, NodeKind.slotsUnderBinders, Scope.find, BinderEnv.find,
    BinderEnv.push, Tys.Inert]

/-- `let outer = true in letrec inner = true, member : {Int | ref} = 1 in member`. -/
def groupUnderLet (outer inner member ref : Name) (a : ℕ) : Expr ℕ :=
  letBinding outer .nil (const "true") (.node .letRec none (.mk .hole .nil) .nil .nil
    (.bind inner .nil (.bind member (intWhere ref a)
      (.child (const "true") (.child (const "1") (.child (flag member) .nil))))))

/-- The annotation of a later member of a group reads the binder around the group.  The walk takes
it to the member of the group that it has already minted. -/
theorem runIn_captures_in_group :
    (groupUnderLet (.raw "f") (.raw "f") (.raw "g") (.raw "f") 0).Lowered
      (fun _ => flag (.raw "f")) 0 1 ∧
    (runIn (groupUnderLet (.raw "f") (.raw "f") (.raw "g") (.raw "f") 0) [] none ⟨0, 1, []⟩).1 =
      groupUnderLet (.unique "f" 0 none) (.unique "f" 1 none) (.unique "g" 2 none)
        (.unique "f" 1 none) 1 ∧
    ¬Preserved (groupUnderLet (.raw "f") (.raw "f") (.raw "g") (.raw "f") 0)
      (runIn (groupUnderLet (.raw "f") (.raw "f") (.raw "g") (.raw "f") 0) [] none
        ⟨0, 1, []⟩).1 := by
  have hout : (runIn (groupUnderLet (.raw "f") (.raw "f") (.raw "g") (.raw "f") 0) [] none
      ⟨0, 1, []⟩).1 = groupUnderLet (.unique "f" 0 none) (.unique "f" 1 none)
        (.unique "g" 2 none) (.unique "f" 1 none) 1 := rfl
  refine ⟨?_, hout, fun h => ?_⟩
  · simp [groupUnderLet, letBinding, intWhere, const, flag, Expr.Lowered, Items.Lowered,
      Ty.Lowered, Parts.Lowered, Tys.Lowered, NodeKind.Shaped, NodeKind.role, Name.Old,
      Name.isRaw]
  · have halpha := h.alpha
    rw [hout] at halpha
    simp [groupUnderLet, letBinding, intWhere, flag, Expr.alpha_node (k := .letIn) (by decide),
      Expr.alpha_node (k := .letRec) (by decide), Expr.Alpha, Items.Alpha, Ty.Alpha, Parts.Alpha,
      Tys.Alpha, NodeKind.slotsUnderBinders, Corresponds] at halpha

end Shadowing

end Cambra.Ir
