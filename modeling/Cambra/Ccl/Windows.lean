import Cambra.Ccl.Chain

/-!
# What the pairwise rules do to a chain

A pairwise rule replaces two neighbouring steps of a chain.  The rules here are of two kinds.  An
*exact* rule replaces the two steps by steps with the same meaning (`ExactWindow`).  A *dropping*
rule (`constReduce`, `productBeta`, `applyConstantValued`) keeps one part of the window and drops
the rest, so that the window is what is kept, guarded by its left step (`DroppingWindow`): the
rewritten chain then has the old meaning exactly where the rest of the chain absorbs that guard.
`cccUniversal` is exact on a pair and no rule of a wider product.
-/

namespace Cambra.Ccl

open List Option

variable {W : Keys} (S : Scalars W) (ρ : Env W) {Γ : Ctx}

open Cambra.Ccl.Expr

/-! ## Windows -/

/-- On a typed window the rule keeps the type and the meaning. -/
def ExactWindow (rule : Expr → Expr → Option (List Expr)) : Prop :=
  ∀ {Γ : Ctx} {l r : Expr} {steps : List Expr} {b m d : Ty}, rule l r = some steps →
    Typed Γ l (.fn b m) → Typed Γ r (.fn m d) → steps ≠ [] ∧ TypedChain Γ steps b d ∧
        denChain S ρ steps b d = PFn.seq (l.den S ρ (.fn b m)) (r.den S ρ (.fn m d))

/-- On a typed window the rule keeps the type, and of the meaning what `kept` names: the window is
that, where its left step is defined. -/
def DroppingWindow (rule : Expr → Expr → Option (List Expr)) (kept : Expr → Expr → List Expr) :
    Prop :=
  ∀ {Γ : Ctx} {l r : Expr} {steps : List Expr} {b m d : Ty}, rule l r = some steps →
    Typed Γ l (.fn b m) → Typed Γ r (.fn m d) → steps ≠ [] ∧ TypedChain Γ steps b d ∧
        denChain S ρ steps b d = denChain S ρ (kept l r) b d ∧
        PFn.seq (l.den S ρ (.fn b m)) (r.den S ρ (.fn m d)) =
          PFn.guard (l.den S ρ (.fn b m)) (denChain S ρ (kept l r) b d)

/-- The left step of the window is defined wherever the chain with `kept` in the window's place
is. -/
def AbsorbedWindow (rule : Expr → Expr → Option (List Expr)) (kept : Expr → Expr → List Expr)
    (e : Expr) : Prop :=
  ∀ es a c w b m d, e = .compose es (.fn a c) →
    firstWindow (fun l r => (rule l r).isSome) es = some w →
    w.left.ty = .fn b m → w.right.ty = .fn m d →
      PFn.Absorbs (denChain S ρ w.pre a b) (denChain S ρ (kept w.left w.right) b d)
        (denChain S ρ w.post d c) (w.left.den S ρ (.fn b m))

lemma firstWindow_eq_some {detect : Expr → Expr → Bool} :
    ∀ {es : List Expr} {w : Window}, firstWindow detect es = some w →
      es = w.pre ++ w.left :: w.right :: w.post ∧ detect w.left w.right = true
  | [], _, h | [_], _, h => by simp [firstWindow] at h
  | l :: r :: rest, w, h => by
    rw [firstWindow] at h
    split at h
    · cases h
      exact ⟨rfl, ‹_›⟩
    · obtain ⟨w', hw', rfl⟩ := map_eq_some_iff.mp h
      obtain ⟨heq, hdet⟩ := firstWindow_eq_some hw'
      exact ⟨by rw [heq]; rfl, hdet⟩

variable {e e' l f : Expr} {rule : Expr → Expr → Option (List Expr)} {t a b d y z x : Ty}
  {rest : List Ty}

/-- A rewritten chain: the window, and what it is replaced by. -/
lemma pairwise_eq_some (h : pairwise rule e = some e') :
    ∃ w steps t, firstWindow (fun l r => (rule l r).isSome)
        (w.pre ++ w.left :: w.right :: w.post) = some w ∧
      e = .compose (w.pre ++ w.left :: w.right :: w.post) t ∧
      rule w.left w.right = some steps ∧ e' = rebuild (w.pre ++ steps ++ w.post) t := by
  unfold pairwise at h
  split at h
  · rename_i es t
    obtain ⟨w, hw, h⟩ := bind_eq_some_iff.mp h
    obtain ⟨steps, hsteps, h⟩ := bind_eq_some_iff.mp h
    cases h
    obtain ⟨rfl, -⟩ := firstWindow_eq_some hw
    exact ⟨w, steps, t, hw, rfl, hsteps, rfl⟩
  · cases h

variable {post pre steps : List Expr} {r : Expr} {u m : Ty}

lemma Typed.window (h : Typed Γ (.compose (pre ++ l :: r :: post) u) t) :
    ∃ a b m d c, u = .fn a c ∧ t = .fn a c ∧ TypedChain Γ pre a b ∧ Typed Γ l (.fn b m) ∧
      Typed Γ r (.fn m d) ∧ TypedChain Γ post d c ∧
      (Expr.compose (pre ++ l :: r :: post) u).den S ρ (.fn a c) =
        PFn.seq (denChain S ρ pre a b) (PFn.seq
          (PFn.seq (l.den S ρ (.fn b m)) (r.den S ρ (.fn m d))) (denChain S ρ post d c)) := by
  cases h with
  | compose hlen h =>
    rename_i a c
    obtain ⟨b, hpre, hrest⟩ := typedChain_append.mp h
    cases hrest with | cons hl hrest => cases hrest with | cons hr hpost =>
    refine ⟨a, b, _, _, c, rfl, rfl, hpre, hl, hr, hpost, ?_⟩
    rw [den, denChain_append S ρ hpre, denChain_cons S ρ hl, denChain_cons S ρ hr, PFn.seq_assoc]

lemma typed_replaced {c : Ty} (hne : steps ≠ []) (hpre : TypedChain Γ pre a b)
    (hsteps : TypedChain Γ steps b d) (hpost : TypedChain Γ post d c) :
    Means S ρ Γ (rebuild (pre ++ steps ++ post) (.fn a c)) (.fn a c) (PFn.seq (denChain S ρ pre a b)
        (PFn.seq (denChain S ρ steps b d) (denChain S ρ post d c))) := by
  have hfront : TypedChain Γ (pre ++ steps) a d := typedChain_append.mpr ⟨b, hpre, hsteps⟩
  have hall : TypedChain Γ (pre ++ steps ++ post) a c := typedChain_append.mpr ⟨d, hfront, hpost⟩
  obtain ⟨ht, hden⟩ := typed_rebuild S ρ (by simp [hne]) hall
  refine ⟨ht, ?_⟩
  rw [hden, denChain_append S ρ hfront, denChain_append S ρ hpre, PFn.seq_assoc]

/-- **An exact rule keeps the type and the meaning of a chain.** -/
lemma ExactWindow.pairwise (hrule : ExactWindow S ρ rule) (ht : Typed Γ e t)
    (h : pairwise rule e = some e') : Typed Γ e' t ∧ e'.den S ρ t = e.den S ρ t := by
  obtain ⟨w, steps, u, -, rfl, hsteps, rfl⟩ := pairwise_eq_some h
  obtain ⟨a, b, m, d, c, rfl, rfl, hpre, hl, hr, hpost, hden⟩ := ht.window S ρ
  obtain ⟨hne, htyped, heq⟩ := hrule hsteps hl hr
  obtain ⟨ht', hden'⟩ := typed_replaced S ρ hne hpre htyped hpost
  exact ⟨ht', by rw [hden', hden, heq]⟩

/-- **A dropping rule keeps the type of a chain, and its meaning exactly where the rest of the
chain absorbs the left step of the window.** -/
lemma DroppingWindow.pairwise {kept : Expr → Expr → List Expr}
    (hrule : DroppingWindow S ρ rule kept) (ht : Typed Γ e t) (h : pairwise rule e = some e') :
    Typed Γ e' t ∧ (e'.den S ρ t = e.den S ρ t ↔ AbsorbedWindow S ρ rule kept e) := by
  obtain ⟨w, steps, u, hw, rfl, hsteps, rfl⟩ := pairwise_eq_some h
  obtain ⟨a, b, m, d, c, rfl, rfl, hpre, hl, hr, hpost, hden⟩ := ht.window S ρ
  obtain ⟨hne, htyped, hkept, heq⟩ := hrule hsteps hl hr
  obtain ⟨ht', hden'⟩ := typed_replaced S ρ hne hpre htyped hpost
  refine ⟨ht', ?_⟩
  rw [hden', hden, heq, hkept, PFn.seq_guard_iff]
  constructor
  · rintro habs _ _ _ w' b' m' d' ⟨⟩ hw' hb' hd'
    obtain rfl : w = w' := mem_unique hw hw'
    cases hl.ty_eq.symm.trans hb'
    cases hr.ty_eq.symm.trans hd'
    exact habs
  · intro habs
    exact habs _ _ _ w b m d rfl hw hl.ty_eq hr.ty_eq

/-! ## Exact rules -/

lemma Typed.of_isId (h : Typed Γ e (.fn a b)) (he : e.isId = true) :
    a = b ∧ e.den S ρ (.fn a a) = PFn.id := by
  obtain ⟨u, rfl⟩ := isBuiltin_iff.mp he
  cases h with | builtin hb _ => cases hb with | id =>
  exact ⟨rfl, by rw [den, Builtin.den_id]; rfl⟩

lemma composeIdentity_exact : ExactWindow S ρ composeIdentity := by
  intro Γ l r steps b m d h hl hr
  unfold composeIdentity at h
  split at h
  · cases h
    obtain ⟨rfl, hid⟩ := hl.of_isId S ρ ‹_›
    exact ⟨by simp, typedChain_one.mpr hr, by rw [denChain_one S ρ hr, hid, PFn.id_seq]⟩
  · split at h
    · cases h
      obtain ⟨rfl, hid⟩ := hr.of_isId S ρ ‹_›
      exact ⟨by simp, typedChain_one.mpr hl, by rw [denChain_one S ρ hl, hid, PFn.seq_id]⟩
    · cases h

lemma Typed.apply_window {g : Expr} (hl : Typed Γ l (.fn b m)) (hz : l.asZip = some (f, g))
    (hr : Typed Γ (.builtin .apply u) (.fn m d)) :
    ∃ x, m = .tuple [x, .fn x d] ∧ Typed Γ f (.fn b x) ∧ Typed Γ g (.fn b (.fn x d)) ∧
      PFn.seq (l.den S ρ (.fn b m)) ((Expr.builtin .apply u).den S ρ (.fn m d)) =
        PFn.seq (PFn.pair (f.den S ρ (.fn b x)) (g.den S ρ (.fn b (.fn x d)))) PFn.eval := by
  cases hr with | builtin hb _ => cases hb with | apply x d =>
  obtain ⟨b', x', y, heq, hf, hg, hden⟩ := hl.of_asZip S ρ hz
  cases heq
  refine ⟨x, rfl, hf, hg, ?_⟩
  rw [hden, den, Builtin.den_apply]
  rfl

lemma typed_applied {x : Expr} (hx : Typed Γ x (.fn b y)) (hf : Typed Γ f (.fn b (.fn y d))) :
    Means S ρ Γ (applied x f) (.fn b d)
      (PFn.seq (PFn.pair (x.den S ρ (.fn b y)) (f.den S ρ (.fn b (.fn y d)))) PFn.eval) := by
  have hz := typed_zipPair S ρ hx hf
  have hres := Ty.resolved_fn.mp hz.typed.resolved
  have hd := (Ty.resolved_fn.mp (Ty.resolved_fn.mp hf.resolved).2).2
  have hargs : Ty.computeFunOrHole (.tuple [y, .fn y d]) d = .fn (.tuple [y, .fn y d]) d :=
    Ty.computeFunOrHole_eq hres.2 hd
  have happly : Typed Γ (.builtin .apply (.fn (.tuple [y, .fn y d]) d))
      (.fn (.tuple [y, .fn y d]) d) := .builtin (.apply y d) (Ty.resolved_fn.mpr ⟨hres.2, hd⟩)
  have hchain := TypedChain.cons hz.typed (typedChain_one.mpr happly)
  simp only [applied, hf.codomain_eq, hz.typed.codomain_eq, bind_some,
    Ty.peelRefinements_fn, Ty.codomain_fn, getD_some, hargs,
    chainTy_eq (cons_ne_nil _ _) hchain]
  exact hz.seq S ρ ⟨happly, by rw [den, Builtin.den_apply]; rfl⟩

lemma exponentialBeta_exact : ExactWindow S ρ exponentialBeta := by
  intro Γ l r steps b m d h hl hr
  unfold exponentialBeta at h
  split at h
  case h_2 => cases h
  rename_i g c hz
  obtain ⟨k, hk, rfl⟩ := map_eq_some_iff.mp h
  obtain ⟨x, rfl, hg, hc, hden⟩ := hl.apply_window S ρ hz hr
  obtain ⟨_, _, _, heq, hk', hcurry⟩ := hc.of_asCurry S ρ hk
  cases heq
  have hb := (Ty.resolved_fn.mp hg.resolved).1
  have hid : Typed Γ (.builtin .id (.fn b b)) (.fn b b) :=
    .builtin (.id b) (Ty.resolved_fn.mpr ⟨hb, hb⟩)
  obtain ⟨hzip, hzden⟩ := typed_zipPair S ρ hid hg
  rw [hg.domain_eq, Ty.funOrHole_some]
  refine ⟨by simp, .cons hzip (typedChain_one.mpr hk'), ?_⟩
  rw [denChain_cons S ρ hzip, denChain_one S ρ hk', hzden, hden, hcurry, den, Builtin.den_id]
  exact (PFn.pair_curry_eval _ _).symm

lemma constApply_exact : ExactWindow S ρ constApply := by
  intro Γ l r steps b m d h hl hr
  unfold constApply at h
  split at h
  · rename_i f c hz
    obtain ⟨g, hg, rfl⟩ := map_eq_some_iff.mp h
    obtain ⟨x, rfl, hf, hc, hden⟩ := hl.apply_window S ρ hz hr
    obtain ⟨_, _, heq, hg', hconst⟩ := hc.of_asConst S ρ hg
    cases heq
    refine ⟨by simp, .cons hf (typedChain_one.mpr hg'), ?_⟩
    rw [denChain_cons S ρ hf, denChain_one S ρ hg', hden, hconst]
    exact (PFn.pair_const_eval _ _).symm
  · cases h

lemma applyCompose_exact : ExactWindow S ρ applyCompose := by
  intro Γ l r steps b m d h hl hr
  unfold applyCompose at h
  split at h
  case h_2 => cases h
  rename_i x pair _ _ hz
  obtain ⟨⟨f, g⟩, hfg, rfl⟩ := map_eq_some_iff.mp h
  obtain ⟨x', rfl, hx, hc, hden⟩ := hl.apply_window S ρ hz hr
  cases hc with | compose _ hc => cases hc with | cons hpair hc =>
  have hcomp := typedChain_one.mp hc
  cases hcomp with | builtin hb _ => cases hb with | compose _ y _ =>
  obtain ⟨_, _, _, heq, hf, hg, hpden⟩ := hpair.of_asZip S ρ hfg
  cases heq
  obtain ⟨hxf, hxfden⟩ := typed_applied S ρ hx hf
  obtain ⟨hxfg, hxfgden⟩ := typed_applied S ρ hxf hg
  refine ⟨by simp, typedChain_one.mpr hxfg, ?_⟩
  rw [denChain_one S ρ hxfg, hxfgden, hxfden, hden, den, denChain_cons S ρ hpair,
    denChain_one S ρ (typedChain_one.mp hc), hpden, den, Builtin.den_compose]
  exact (PFn.pair_compose_eval _ _ _).symm

lemma zipVals_pair (fs : Vals W [.fn a y, .fn a z]) (v : a.Val W) :
    zipVals a [y, z] fs v = (fs.1 v).bind fun p => (fs.2.1 v).map fun q => (p, q, ()) := by
  change ((fs.1 v).bind fun p => (((fs.2.1 v).bind fun q => some (q, ())).bind fun ws =>
    some (p, ws))) = _
  cases fs.1 v <;> cases fs.2.1 v <;> rfl

lemma applyZip_exact : ExactWindow S ρ applyZip := by
  intro Γ l r steps b m d h hl hr
  unfold applyZip at h
  split at h
  case h_2 => cases h
  rename_i x pair _ _ hz
  obtain ⟨⟨f, g⟩, hfg, rfl⟩ := map_eq_some_iff.mp h
  obtain ⟨x', rfl, hx, hc, hden⟩ := hl.apply_window S ρ hz hr
  cases hc with | compose _ hc => cases hc with | cons hpair hc =>
  have hzip := typedChain_one.mp hc
  cases hzip with | builtin hb _ => cases hb with | zip _ cs =>
  obtain ⟨_, c, c', heq, hf, hg, hpden⟩ := hpair.of_asZip S ρ hfg
  match cs, heq with
  | [y, z], rfl =>
    obtain ⟨hxf, hxfden⟩ := typed_applied S ρ hx hf
    obtain ⟨hxg, hxgden⟩ := typed_applied S ρ hx hg
    obtain ⟨hfg', hfgden⟩ := typed_zipPair S ρ hxf hxg
    refine ⟨by simp, typedChain_one.mpr hfg', ?_⟩
    have hzip : (Expr.builtin .zip (.fn (.tuple [.fn x' y, .fn x' z]) (.fn x' (.tuple [y, z])))).den
          S ρ (.fn (.tuple [.fn x' y, .fn x' z]) (.fn x' (.tuple [y, z]))) =
        some fun v => some fun k => (v.1 k).bind fun p => (v.2.1 k).map fun q => (p, q, ()) := by
      rw [den]
      refine (Builtin.den_zip S x' [y, z]).trans (congrArg some (funext fun v => ?_))
      exact congrArg some (funext fun k => zipVals_pair v k)
    rw [denChain_one S ρ hfg', hfgden, hxfden, hxgden, hden, den, denChain_cons S ρ hpair,
      denChain_one S ρ (typedChain_one.mp hc)]
    change _ = PFn.seq (PFn.pair _ (PFn.seq (pair.den S ρ (.fn b (.tuple [.fn x' y, .fn x' z])))
      ((Expr.builtin .zip (.fn (.tuple [.fn x' y, .fn x' z]) (.fn x' (.tuple [y, z])))).den
        S ρ (.fn (.tuple [.fn x' y, .fn x' z]) (.fn x' (.tuple [y, z])))))) _
    rw [hpden, hzip]
    exact (PFn.pair_zip_eval _ _ _).symm

lemma partialLookup_exact : ExactWindow S ρ partialLookup := by
  intro Γ l r steps b m d h hl hr
  unfold partialLookup at h
  split at h
  case h_2 => cases h
  rename_i lookupTy constC keys hz
  obtain ⟨c, hc, h⟩ := bind_eq_some_iff.mp h
  cases h
  have hlookup := hr
  cases hr with | builtin hb hres => cases hb with | lookupChecked k v =>
  obtain ⟨_, _, _, heq, hconst, hkeys, hden⟩ := hl.of_asZip S ρ hz
  cases heq
  obtain ⟨_, _, heq, hc', hcden⟩ := hconst.of_asConst S ρ hc
  cases heq
  have hkv := Ty.resolved_fn.mp hc'.resolved
  have hov := (Ty.resolved_fn.mp hres).2
  have hat : (Ty.fn (.fn k v) (.fn k (.option v))).resolved = true :=
    Ty.resolved_fn.mpr ⟨hc'.resolved, Ty.resolved_fn.mpr ⟨hkv.1, hov⟩⟩
  have hcurry : Typed Γ (.builtin .curry (.fn (.fn (.tuple [.fn k v, k]) (.option v))
      (.fn (.fn k v) (.fn k (.option v))))) _ :=
    .builtin (.curry (.fn k v) k (.option v)) (Ty.resolved_fn.mpr ⟨hres, hat⟩)
  have hstep : Typed Γ (.apply c (.apply (.builtin .lookupChecked _) (.builtin .curry _) _) _)
      (.fn k (.option v)) := .apply hc' (.apply hlookup hcurry)
  simp only [hkeys.codomain_eq, hc'.ty_eq, getD_some, Ty.codomain_fn]
  refine ⟨by simp, .cons hkeys (typedChain_one.mpr hstep), ?_⟩
  rw [denChain_cons S ρ hkeys, denChain_one S ρ hstep, hden, hcden]
  rw [den_apply_of S ρ hc'.ty_eq,
    den_apply_builtin S ρ hlookup.ty_eq (Builtin.den_curry S (.fn k v) k (.option v)), den,
    Builtin.den_lookupChecked]
  exact (PFn.pair_const_lookup _ _).symm

lemma composeConstantFunction_exact : ExactWindow S ρ composeConstantFunction := by
  intro Γ l r steps b m d h hl hr
  unfold composeConstantFunction at h
  split at h
  case h_2 => cases h
  rename_i source lifted hz
  split at h
  case isFalse => cases h
  obtain ⟨f, hf, h⟩ := bind_eq_some_iff.mp h
  cases hr with | builtin hb hres => cases hb with | compose x y z =>
  obtain ⟨_, _, _, heq, hsource, hlifted, hden⟩ := hl.of_asZip S ρ hz
  cases heq
  obtain ⟨_, _, heq, hf', hconst⟩ := hlifted.of_asConst S ρ hf
  cases heq
  obtain ⟨rfl, hid⟩ := hsource.of_isId S ρ ‹_›
  split at h
  · obtain rfl : [source] = steps := by simpa using h
    obtain ⟨rfl, hfid⟩ := hf'.of_isId S ρ ‹_›
    refine ⟨by simp, typedChain_one.mpr hsource, ?_⟩
    rw [denChain_one S ρ hsource, hden, hconst, hfid, hid, den, Builtin.den_compose]
    rw [PFn.pair_id_const_compose]
    simp [PFn.seq, PFn.id]
  · have hxz := (Ty.resolved_fn.mp hres).2
    have hmap : Builtin.HasTy .map (.fn (.fn y z) (.fn (.fn x y) (.fn x z))) := .map x y z
    have hmapped := typed_applyPrimitive hf' hmap
      (Ty.resolved_fn.mpr ⟨(Ty.resolved_fn.mp hsource.resolved).1, hxz⟩)
    simp only [hsource.codomain_eq, hf'.codomain_eq, Ty.domain_fn, Ty.funOrHole_some,
      Option.some.injEq] at h
    subst h
    refine ⟨by simp, .cons hsource (typedChain_one.mpr hmapped), ?_⟩
    rw [denChain_cons S ρ hsource, denChain_one S ρ hmapped, hden, hconst, hid, applyPrimitive,
      den_apply_builtin S ρ hf'.ty_eq (Builtin.den_map S x y z), den, Builtin.den_compose]
    exact (PFn.pair_id_const_compose _).symm

lemma zipDistributeCompose_exact : ExactWindow S ρ zipDistributeCompose := by
  intro Γ l r steps b m d h hl hr
  unfold zipDistributeCompose at h
  split at h
  case h_2 => cases h
  rename_i arms _ harms
  split at h
  case isFalse => cases h
  cases h
  obtain ⟨hlen, _, cs, heq, hes, hden⟩ := hr.of_asZipArms S ρ harms
  cases heq
  have hne : arms ≠ [] := by rintro rfl; simp at hlen
  have hlift : ∀ (e : Expr) (c : Ty), Typed Γ e (.fn m c) →
      Typed Γ (.compose [l, e] (chainTy [l, e])) (.fn b c) := fun e c he => by
    have hchain := TypedChain.cons hl (typedChain_one.mpr he)
    rw [chainTy_eq (cons_ne_nil _ _) hchain]
    exact .compose (by simp) hchain
  have hlifted : TypedTuple Γ (arms.map fun arm => .compose [l, arm] (chainTy [l, arm]))
      (cs.map (Ty.fn b)) := hes.map_arms hlift
  obtain ⟨hzip, hzden⟩ := typed_zipOf S ρ (by simpa using hne) hlifted
  refine ⟨by simp, typedChain_one.mpr hzip, ?_⟩
  rw [denChain_one S ρ hzip, hzden, hden]
  refine (hes.seq_zipDen S ρ _ (fun e c he => ?_) hne).symm
  rw [den, denChain_cons S ρ hl, denChain_one S ρ he]

/-! ## Dropping rules -/

/-- The lifted constant. -/
def keptConstant (_ r : Expr) : List Expr := [r]

/-- The arm a projection reads. -/
def keptArm (l r : Expr) : List Expr :=
  match r, l.asZipArms with
  | .proj i _, some arms => arms[i]?.toList
  | _, _ => []

/-- The steps before the `const` of an applied constant function. -/
def keptSteps (l _ : Expr) : List Expr :=
  match l.asZip with
  | some (_, m) => (m.composeSplitLast.map Prod.fst).getD []
  | none => []

lemma constReduce_dropping : DroppingWindow S ρ constReduce keptConstant := by
  intro Γ l r steps b m d h hl hr
  unfold constReduce at h
  split at h
  case h_2 => cases h
  rename_i g u rt
  split at h
  · cases h
  have hrt : rt = .fn m d := hr.ty_eq
  rw [hl.domain_eq, hrt, Ty.codomain_fn, Ty.funOrHole_some] at h
  cases h
  obtain ⟨_, _, heq, hg, hconst⟩ := hr.of_asConst S ρ (c := g) rfl
  cases heq
  have hstep := typed_const hg (Ty.resolved_fn.mp hl.resolved).1
  have hkept : denChain S ρ (keptConstant l (.apply g (.builtin .const u) rt)) b d =
      PFn.const (g.den S ρ d) := by
    rw [keptConstant, denChain_singleton S ρ hr.codomain_eq, den_const_at S ρ hg.ty_eq]
  refine ⟨by simp, typedChain_one.mpr hstep, ?_, by rw [hkept, hconst, PFn.seq_const]⟩
  rw [denChain_one S ρ hstep, hkept, den_const_at S ρ hg.ty_eq]

lemma productBeta_dropping : DroppingWindow S ρ productBeta keptArm := by
  intro Γ l r steps b m d h hl hr
  unfold productBeta at h
  split at h
  case h_2 => cases h
  rename_i i _ arms harms
  split at h
  · obtain ⟨arm, harm, rfl⟩ := map_eq_some_iff.mp h
    obtain ⟨-, _, bs, heq, hes, hden⟩ := hl.of_asZipArms S ρ harms
    cases heq
    cases hr with | proj hi _ =>
    have harm' : Typed Γ arm (.fn b d) := hes.get harm (by simp [hi])
    have hkept : keptArm l (.proj i (.fn (.tuple bs) d)) = [arm] := by simp [keptArm, harms, harm]
    refine ⟨by simp, typedChain_one.mpr harm', by rw [hkept], ?_⟩
    rw [hkept, denChain_one S ρ harm', hden, den, projDen, if_pos hi]
    exact zipDen_nth S ρ b d arm arms bs i harm hi
  · cases h

lemma composeSplitLast_eq_some {last : Expr} {es : List Expr}
    (h : e.composeSplitLast = some (es, last)) : ∃ t, e = .compose (es ++ [last]) t ∧ es ≠ [] := by
  unfold composeSplitLast at h
  split at h
  · rename_i fs t
    obtain ⟨last', hlast, h⟩ := bind_eq_some_iff.mp h
    split at h
    · cases h
    · cases h
      refine ⟨t, by rw [dropLast_append_getLast? last hlast], ?_⟩
      rename_i hne
      simpa using hne
  · cases h

lemma applyConstantValued_dropping : DroppingWindow S ρ applyConstantValued keptSteps := by
  intro Γ l r steps b m d h hl hr
  unfold applyConstantValued at h
  split at h
  case h_2 => cases h
  rename_i x f hz
  split at h
  case h_2 => cases h
  rename_i fs last hf
  split at h
  case isFalse => cases h
  cases h
  obtain ⟨x', rfl, hx, hfn, hden⟩ := hl.apply_window S ρ hz hr
  obtain ⟨t, rfl, hne⟩ := composeSplitLast_eq_some hf
  obtain ⟨u, rfl⟩ := isBuiltin_iff.mp ‹_›
  cases hfn with | compose _ hchain =>
  obtain ⟨y, hfs, hlast⟩ := typedChain_append.mp hchain
  have hconst := typedChain_one.mp hlast
  cases hconst with | builtin hb _ => cases hb with | const =>
  obtain ⟨_, _, _, heq, -, -, hlden⟩ := hl.of_asZip S ρ hz
  cases heq
  have hkept : ∀ r, keptSteps l r = steps := by simp [keptSteps, hz, hf]
  refine ⟨hne, hfs, by rw [hkept], ?_⟩
  rw [hden, hlden, hkept, den, denChain_append S ρ hfs,
    denChain_one S ρ (typedChain_one.mp hlast), den, Builtin.den_const]
  exact PFn.pair_constantValued_eval _ _

/-! ## The universal property of currying -/

/-- The morphism curried in `⟨.1, .0 ≫ curry(f)⟩`. -/
def curriedArm (l : Expr) : Option Expr :=
  match l.asZip with
  | some (_, .compose [_, c] _) => c.asCurry
  | _ => none

/-- Whether a term is a lone projection or a lifted constant: it can be read over any product. -/
def Expr.readsAnyProduct : Expr → Bool
  | .proj _ _ => true
  | e => e.asConst.isSome

/-- The window reads a pair; or it is the whole chain, and the curried morphism is a projection or
a constant. -/
def ReadsPair (e : Expr) : Prop := ∀ es t w, e = .compose es t →
    firstWindow (fun l r => (cccUniversal l r).isSome) es = some w →
      (∃ x y, w.left.ty.domain = some (.tuple [x, y])) ∨
        (w.pre = [] ∧ w.post = [] ∧ ∃ f, curriedArm w.left = some f ∧ f.readsAnyProduct = true)

/-- A built-in read over a pair is not read over a wider product. -/
lemma Builtin.HasTy.not_wider {b : Builtin} (h : b.HasTy (.fn (.tuple [x, y]) d)) :
    ¬ b.HasTy (.fn (.tuple (x :: y :: z :: rest)) d) := by
  intro h'
  generalize ht : Ty.fn (.tuple [x, y]) d = t at h
  generalize hu : Ty.fn (.tuple (x :: y :: z :: rest)) d = u at h'
  cases h with
  | uncurry as v has =>
    cases as with
    | nil => simp at has
    | cons a as => cases ht
  | _ => cases h' <;> grind

/-- A term typed at a function of a pair is typed over a wider product only where it is a lone
projection or a lifted constant. -/
lemma readsAnyProduct_of_typed (hf : Typed Γ f (.fn (.tuple [x, y]) d))
    (h : Typed Γ (f.collapseTo (.fn (.tuple (x :: y :: z :: rest)) d))
      (.fn (.tuple (x :: y :: z :: rest)) d)) : f.readsAnyProduct = true := by
  have hts : Ty.fn (.tuple [x, y]) d ≠ .fn (.tuple (x :: y :: z :: rest)) d := by simp
  cases hf with
  | var hx _ =>
    cases h with | var hx' _ => exact absurd (mem_unique hx hx') hts
  | proj => rfl
  | builtin hb _ => cases h with | builtin hb' _ => exact absurd hb' hb.not_wider
  | apply ha hg =>
    unfold collapseTo at h
    split at h
    · rename_i heq
      cases heq
      rfl
    · cases h with
      | apply ha' hg' =>
        have := hg.ty_eq.symm.trans hg'.ty_eq
        simp at this
  | compose hlen hes =>
    cases h with | compose _ hes' =>
    cases hes with
    | nil => simp at hlen
    | cons he _ =>
      cases hes' with
      | cons he' _ =>
        have := he.ty_eq.symm.trans he'.ty_eq
        simp at this
  | letE _ hbody =>
    cases h with | letE _ hbody' => exact absurd (hbody.ty_eq.symm.trans hbody'.ty_eq) hts

/-- A function of a pair, read at the first two components of a product. -/
def onPair {x y d : Ty} {rest : List Ty} (f : PFn ((Ty.tuple [x, y]).Val W) (d.Val W)) :
    PFn ((Ty.tuple (x :: y :: rest)).Val W) (d.Val W) :=
  f.map fun f v => f (v.1, v.2.1, ())

/-- The parts of a typed window `⟨.1, .0 ≫ curry(f)⟩ ≫ apply`. -/
lemma cccUniversal_window (h : cccUniversal l r = some steps) (hl : Typed Γ l (.fn b m))
    (hr : Typed Γ r (.fn m d)) :
    ∃ x y rest f, b = .tuple (x :: y :: rest) ∧ steps = [f] ∧ curriedArm l = some f ∧
      Typed Γ f (.fn (.tuple [x, y]) d) ∧
      PFn.seq (l.den S ρ (.fn (.tuple (x :: y :: rest)) m)) (r.den S ρ (.fn m d)) =
        onPair (f.den S ρ (.fn (.tuple [x, y]) d)) := by
  unfold cccUniversal at h
  split at h
  case h_2 => cases h
  rename_i c _ hz
  obtain ⟨f, hf, rfl⟩ := map_eq_some_iff.mp h
  obtain ⟨x', rfl, h1, harm, hden⟩ := hl.apply_window S ρ hz hr
  cases h1 with | proj hi1 hts =>
  rename_i ts
  cases harm with | compose _ harm => cases harm with | cons h0 hc =>
  have hc' := typedChain_one.mp hc
  have h0' := h0
  cases h0 with | proj hi0 hts0 =>
  obtain ⟨_, _, _, heq, hf', hcurry⟩ := hc'.of_asCurry S ρ hf
  cases heq
  match ts, hi0, hi1 with
  | y :: x' :: rest, rfl, rfl =>
    refine ⟨y, x', rest, f, rfl, rfl, by simp [curriedArm, hz, hf], hf', ?_⟩
    rw [hden, den_proj_one, den, denChain_cons S ρ h0', denChain_one S ρ hc', hcurry, den_proj_zero]
    exact PFn.universal _ _ _

lemma onPair_pair (f : PFn ((Ty.tuple [x, y]).Val W) (d.Val W)) : onPair f = f := by cases f <;> rfl

/-- A projection or a constant reads a wider product as it reads the pair. -/
lemma typed_readsAnyProduct (hf : Typed Γ f (.fn (.tuple [x, y]) d))
    (hreads : f.readsAnyProduct = true) (hres : (Ty.tuple (x :: y :: rest)).resolved = true) :
    Means S ρ Γ (f.collapseTo (.fn (.tuple (x :: y :: rest)) d)) (.fn (.tuple (x :: y :: rest)) d)
      (onPair (f.den S ρ (.fn (.tuple [x, y]) d))) := by
  cases hc : f.asConst with
  | some c =>
    obtain ⟨_, _, heq, hc', hden⟩ := hf.of_asConst S ρ hc
    cases heq
    have hcollapse : f.collapseTo (.fn (.tuple (x :: y :: rest)) d) = .apply c
        (.builtin .const (.computeFunOrHole c.ty (.fn (.tuple (x :: y :: rest)) d)))
        (.fn (.tuple (x :: y :: rest)) d) := by
      unfold asConst at hc
      split at hc
      · cases hc; rfl
      · cases hc
    rw [hcollapse, hden]
    exact ⟨typed_const hc' hres, (den_const_at S ρ hc'.ty_eq).trans (by cases c.den S ρ d <;> rfl)⟩
  | none =>
    unfold readsAnyProduct at hreads
    split at hreads
    case h_2 => simp [hc] at hreads
    cases hf with | proj hi hpair =>
    rename_i i
    have hi' : (x :: y :: rest)[i]? = some d := by
      rcases i with - | - | i
      · simpa using hi
      · simpa using hi
      · simp at hi
    refine ⟨.proj hi' hres, ?_⟩
    rw [collapseTo, withTy, den, den, projDen, projDen, if_pos hi', if_pos hi]
    · refine congrArg some (funext fun v => ?_)
      rcases i with - | - | i
      · rfl
      · rfl
      · simp at hi
    · simp

/-- **The universal property of currying keeps type and meaning exactly where the window reads a
pair, or is the whole chain with a projection or a constant curried.** -/
lemma cccUniversal_iff (ht : Typed Γ e t) (h : pairwise cccUniversal e = some e') :
    (Typed Γ e' t ∧ e'.den S ρ t = e.den S ρ t) ↔ ReadsPair e := by
  obtain ⟨w, steps, u, hw, rfl, hsteps, rfl⟩ := pairwise_eq_some h
  obtain ⟨a, b, m, d, c, rfl, rfl, hpre, hl, hr, hpost, hden⟩ := ht.window S ρ
  obtain ⟨x, y, rest, f, rfl, rfl, harm, hf, hwin⟩ := cccUniversal_window S ρ hsteps hl hr
  rw [hwin] at hden
  cases rest with
  | nil =>
    obtain ⟨ht', hden'⟩ := typed_replaced S ρ (cons_ne_nil f []) hpre (typedChain_one.mpr hf) hpost
    rw [onPair_pair] at hden
    rw [denChain_one S ρ hf] at hden'
    refine ⟨fun _ => ?_, fun _ => ⟨ht', by rw [hden', hden]⟩⟩
    rintro _ _ w' ⟨⟩ hw'
    obtain rfl : w = w' := mem_unique hw hw'
    exact .inl ⟨x, y, hl.domain_eq⟩
  | cons z rest =>
    constructor
    · rintro ⟨ht', -⟩ _ _ w' ⟨⟩ hw'
      obtain rfl : w = w' := mem_unique hw hw'
      by_cases hlone : w.pre = [] ∧ w.post = []
      · obtain ⟨h1, h2⟩ := hlone
        refine .inr ⟨h1, h2, f, harm, ?_⟩
        rw [h1] at hpre
        rw [h2] at hpost
        cases hpre
        cases hpost
        rw [h1, h2] at ht'
        exact readsAnyProduct_of_typed hf ht'
      · exfalso
        have hlen : 2 ≤ (w.pre ++ [f] ++ w.post).length := by
          rw [← length_eq_zero_iff, ← length_eq_zero_iff] at hlone
          simp only [length_append, length_singleton]
          omega
        rw [rebuild_of_two hlen] at ht'
        cases ht' with | compose _ hchain =>
        obtain ⟨d', hfront, -⟩ := typedChain_append.mp hchain
        obtain ⟨b', hpre', hf'⟩ := typedChain_append.mp hfront
        cases hpre.unique hpre'
        have := hf.ty_eq.symm.trans (typedChain_one.mp hf').ty_eq
        simp at this
    · intro hreads
      obtain ⟨x', y', hdom⟩ | ⟨h1, h2, f', hf', hany⟩ := hreads _ _ w rfl hw
      · simp [hl.domain_eq] at hdom
      cases harm.symm.trans hf'
      rw [h1] at hpre hden ⊢
      rw [h2] at hpost hden ⊢
      cases hpre
      cases hpost
      obtain ⟨ht', hden'⟩ := typed_readsAnyProduct S ρ hf hany (Ty.resolved_fn.mp hl.resolved).1
      refine ⟨ht', hden'.trans ?_⟩
      rw [hden, denChain_nil, denChain_nil, PFn.id_seq, PFn.seq_id]

end Cambra.Ccl
