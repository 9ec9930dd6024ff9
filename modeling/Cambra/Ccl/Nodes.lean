import Cambra.Ccl.Windows

/-!
# What the other rules do

The rules that match a whole node and not a window of a chain.  Splicing nested chains and product
eta are exact.  The others drop a subterm: reading the keys of an iteration drops the steps after
it, reading a component of a literal tuple drops the other components, and exponential eta turns a
function that is curried into one that is read, so that it has to be defined wherever the curried
one is, at every key.
-/

namespace Cambra.Ccl

open Option

variable {W : Keys} (S : Scalars W) (ρ : Env W) {Γ : Ctx}

open Cambra.Ccl.Expr

/-! ## Nested chains -/

mutual

lemma flatStep_typed : ∀ {e : Expr} {a b : Ty}, Typed Γ e (.fn a b) →
    TypedChain Γ (flatStep e) a b ∧ denChain S ρ (flatStep e) a b = e.den S ρ (.fn a b) ∧
      1 ≤ (flatStep e).length
  | .lit _ _, _, _, h | .var _ _, _, _, h | .builtin _ _, _, _, h | .proj _ _, _, _, h
  | .apply _ _ _, _, _, h | .tuple _ _, _, _, h | .letE _ _ _ _, _, _, h =>
    ⟨typedChain_one.mpr h, denChain_one S ρ h, le_rfl⟩
  | .compose es _, a, b, h => by
    cases h with | compose hlen h =>
    obtain ⟨ht, hden, hle⟩ := flatSteps_typed h
    exact ⟨ht, hden, by rw [flatStep]; omega⟩

lemma flatSteps_typed : ∀ {es : List Expr} {a b : Ty}, TypedChain Γ es a b →
    TypedChain Γ (flatSteps es) a b ∧ denChain S ρ (flatSteps es) a b = denChain S ρ es a b ∧
      es.length ≤ (flatSteps es).length
  | [], _, _, h => ⟨h, rfl, le_rfl⟩
  | e :: es, a, b, h => by
    cases h with | cons he hes =>
    obtain ⟨ht, hden, hle⟩ := flatStep_typed he
    obtain ⟨hts, hdens, hles⟩ := flatSteps_typed hes
    refine ⟨typedChain_append.mpr ⟨_, ht, hts⟩, ?_, ?_⟩
    · rw [flatSteps, denChain_append S ρ ht, denChain_cons S ρ he, hden, hdens]
    · rw [flatSteps, List.length_append, List.length_cons]
      omega

end

variable {e e' : Expr} {t a b : Ty}

lemma flattenCompose_exact (ht : Typed Γ e t) (h : flattenCompose e = some e') :
    Typed Γ e' t ∧ e'.den S ρ t = e.den S ρ t := by
  unfold flattenCompose at h
  split at h
  · split at h
    · cases h
      cases ht with | compose hlen hes =>
      obtain ⟨ht', hden, hle⟩ := flatSteps_typed S ρ hes
      exact ⟨.compose (hlen.trans hle) ht', hden⟩
    · cases h
  · cases h

/-! ## Keys of an iteration -/

/-- The steps of a term: a chain's own, or the term. -/
def Expr.steps : Expr → List Expr
  | .compose es _ => es
  | e => [e]

/-- The steps after an iteration whose keys are read are defined at all of them. -/
def TailDefined (e : Expr) : Prop :=
  ∀ argument f t source tail a b, e = .apply argument f t → argument.steps = source :: tail →
    source.ty = .fn a a → argument.ty = .fn a b →
      PFn.Absorbs (source.den S ρ (.fn a a)) PFn.id PFn.id (denChain S ρ tail a b)

lemma Typed.steps_typed (h : Typed Γ e (.fn a b)) :
    TypedChain Γ e.steps a b ∧ denChain S ρ e.steps a b = e.den S ρ (.fn a b) := by
  unfold Expr.steps
  split
  · cases h with | compose _ h => exact ⟨h, rfl⟩
  · exact ⟨typedChain_one.mpr h, denChain_one S ρ h⟩

/-- An iteration gives each of its keys back. -/
lemma Typed.of_isIteration (h : Typed Γ e (.fn a b)) (he : e.isIteration = true) :
    a = b ∧ ∀ f, e.den S ρ (.fn a a) = some f → ∀ k v, f k = some v → k = v := by
  unfold isIteration at he
  split at he
  · cases h with | apply hp hf => cases hf with | builtin hb _ => cases hb with | iterate d r =>
    refine ⟨rfl, fun f hf k v hk => ?_⟩
    obtain ⟨key, hkey⟩ := Ty.forget_refineWith (W := W) d r
    rw [den_apply_builtin S ρ hp.ty_eq (Builtin.den_iterate S hkey)] at hf
    obtain ⟨p, -, hf⟩ := bind_eq_some_iff.mp hf
    cases hf
    unfold keepIf at hk
    split at hk
    · exact Option.some.inj hk
    · cases hk
  · cases he

lemma mapDomainOfIteration_iff (ht : Typed Γ e t) (h : mapDomainOfIteration e = some e') :
    Typed Γ e' t ∧ (e'.den S ρ t = e.den S ρ t ↔ TailDefined S ρ e) := by
  unfold mapDomainOfIteration at h
  split at h
  case h_2 => cases h
  rename_i argument _ _
  dsimp only at h
  split at h
  case h_2 => cases h
  rename_i source tail hsteps
  change argument.steps = source :: tail at hsteps
  split at h
  case isFalse => cases h
  rename_i hguard
  cases h
  cases ht with | apply harg hf => cases hf with | builtin hb _ =>
  cases hb with | mapDomain a b =>
  obtain ⟨hchain, hden⟩ := harg.steps_typed S ρ
  rw [hsteps] at hchain hden
  cases hchain with | cons hs htail =>
  rw [Bool.and_eq_true] at hguard
  obtain ⟨rfl, hkeys⟩ := hs.of_isIteration S ρ hguard.1
  rw [denChain_cons S ρ hs] at hden
  refine ⟨hs, ?_⟩
  have hkeysden : (Expr.apply argument (.builtin .mapDomain (.fn (.fn a b) (.fn a a)))
      (.fn a a)).den S ρ (.fn a a) =
        PFn.seq (e'.den S ρ (.fn a a)) (PFn.seq (PFn.guard (denChain S ρ tail a b) PFn.id)
          PFn.id) := by
    rw [PFn.seq_id, ← PFn.keys_seq hkeys, hden,
      den_apply_builtin S ρ harg.ty_eq (Builtin.den_mapDomain S a b)]
    cases argument.den S ρ (.fn a b) <;> rfl
  have hsource : e'.den S ρ (.fn a a) =
      PFn.seq (e'.den S ρ (.fn a a)) (PFn.seq PFn.id PFn.id) := by rw [PFn.seq_id, PFn.seq_id]
  have hiff := PFn.seq_guard_iff (e'.den S ρ (.fn a a)) (denChain S ρ tail a b) PFn.id
    (PFn.id : PFn (a.Val W) (a.Val W))
  rw [← hsource, ← hkeysden] at hiff
  rw [hiff]
  constructor
  · rintro habs _ _ _ source' tail' a' b' ⟨⟩ hsteps' hs' harg'
    cases hsteps.symm.trans hsteps'
    cases hs.ty_eq.symm.trans hs'
    cases harg.ty_eq.symm.trans harg'
    exact habs
  · intro habs
    exact habs _ _ _ e' tail a b rfl hsteps hs.ty_eq harg.ty_eq

/-! ## Components of a literal tuple -/

/-- Where the component that is read has a value, the other components have one. -/
def OthersDefined (e : Expr) : Prop :=
  ∀ es s i u t component, e = .apply (.tuple es s) (.proj i u) t → es[i]? = some component →
    (component.den S ρ component.ty).isSome → ∀ other ∈ es, (other.den S ρ other.ty).isSome

lemma TypedTuple.denTuple_nth : ∀ {es : List Expr} {ts : List Ty} {i : ℕ} {e : Expr} {t : Ty},
    TypedTuple Γ es ts → es[i]? = some e → ts[i]? = some t →
      ∀ vs, denTuple S ρ es ts = some vs → Vals.nth ts i t vs = e.den S ρ t
  | [], _, _, _, _, _, he, _ => by simp at he
  | e :: es, t :: ts, i, e', t', .cons h hs, he, ht => by
    intro vs hvs
    rw [denTuple] at hvs
    obtain ⟨v, hv, hvs⟩ := bind_eq_some_iff.mp hvs
    obtain ⟨ws, hws, hvs⟩ := bind_eq_some_iff.mp hvs
    cases hvs
    match i, he, ht with
    | 0, rfl, rfl => rw [hv]; exact Ty.read_self _ _
    | i + 1, he, ht =>
      exact hs.denTuple_nth (i := i) (by simpa using he) (by simpa using ht) ws hws

lemma TypedTuple.denTuple_isSome : ∀ {es : List Expr} {ts : List Ty}, TypedTuple Γ es ts →
    ((denTuple S ρ es ts).isSome ↔ ∀ e ∈ es, (e.den S ρ e.ty).isSome)
  | [], [], _ => by simp [denTuple]
  | e :: es, t :: ts, .cons h hs => by
    rw [denTuple, List.forall_mem_cons, ← hs.denTuple_isSome, h.ty_eq]
    cases e.den S ρ t <;> cases denTuple S ρ es ts <;> simp

lemma literalTupleProjection_iff (ht : Typed Γ e t) (h : literalTupleProjection e = some e') :
    Typed Γ e' t ∧ (e'.den S ρ t = e.den S ρ t ↔ OthersDefined S ρ e) := by
  unfold literalTupleProjection at h
  split at h
  case h_2 => cases h
  rename_i es s i u t'
  cases ht with | apply htuple hproj =>
  cases htuple with | tuple hes =>
  rename_i ts
  have hproj' := hproj
  cases hproj with | proj hi _ =>
  have he' := hes.get h hi
  refine ⟨he', ?_⟩
  have hden : (Expr.apply (.tuple es (.tuple ts)) (.proj i (.fn (.tuple ts) t)) t).den S ρ t =
      (denTuple S ρ es ts).bind (Vals.nth ts i t) := by
    rw [den_apply_of S ρ (s := .tuple ts) rfl, den, den, projDen, if_pos hi]
    rfl
  rw [hden]
  have hnth := hes.denTuple_nth S ρ h hi
  constructor
  · rintro heq _ _ _ _ _ component ⟨⟩ hc hsome
    obtain rfl : e' = component := mem_unique h hc
    rw [← hes.denTuple_isSome]
    rw [he'.ty_eq, heq] at hsome
    cases hd : denTuple S ρ es ts with
    | none => simp [hd] at hsome
    | some vs => rfl
  · intro hothers
    cases hd : denTuple S ρ es ts with
    | some vs => exact (hnth vs hd).symm
    | none =>
      cases hv : e'.den S ρ t with
      | none => rfl
      | some v =>
        have := hothers _ _ _ _ _ e' rfl h (by rw [he'.ty_eq, hv]; rfl)
        rw [← hes.denTuple_isSome, hd] at this
        cases this

/-! ## Product eta -/

lemma productEta_exact (ht : Typed Γ e t) (h : productEta e = some e') :
    Typed Γ e' t ∧ e'.den S ρ t = e.den S ρ t := by
  unfold productEta at h
  obtain ⟨⟨l, r⟩, hz, h⟩ := bind_eq_some_iff.mp h
  obtain ⟨⟨lpfx, lp⟩, hl, h⟩ := bind_eq_some_iff.mp h
  obtain ⟨⟨rpfx, rp⟩, hr, hout⟩ := bind_eq_some_iff.mp h
  dsimp only at hout
  split at hout
  case h_2 => cases hout
  rename_i x y z _
  split at hout
  case isFalse => cases hout
  rename_i hpfx
  subst hpfx
  obtain ⟨a, b, c, rfl, hlt, hrt, hden⟩ := ht.of_asZip S ρ hz
  obtain ⟨_, rfl, hne⟩ := composeSplitLast_eq_some hl
  obtain ⟨_, rfl, -⟩ := composeSplitLast_eq_some hr
  cases hlt with | compose _ hlt =>
  cases hrt with | compose _ hrt =>
  obtain ⟨m, hm, h0⟩ := typedChain_append.mp hlt
  obtain ⟨m', hm', h1⟩ := typedChain_append.mp hrt
  obtain rfl := hm.unique hm'
  have h0 := typedChain_one.mp h0
  have h1 := typedChain_one.mp h1
  have h0' := h0
  have h1' := h1
  cases h0 with | proj hi0 _ =>
  cases h1 with | proj hi1 _ =>
  have hz : x = z := by simpa using hi0
  have hc : y = c := by simpa using hi1
  subst hz hc
  have heta : e.den S ρ (.fn a (.tuple [x, y])) = denChain S ρ lpfx a (.tuple [x, y]) := by
    rw [hden, den, den, denChain_append S ρ hm, denChain_append S ρ hm,
      denChain_one S ρ h0', denChain_one S ρ h1', den_proj_zero, den_proj_one]
    exact PFn.pair_fst_snd _
  cases hout
  rw [heta, ht.ty_eq]
  match lpfx, hne, hm with
  | [f], _, hm =>
    have hf := typedChain_one.mp hm
    change Typed Γ (f.withTy (.fn a (.tuple [x, y]))) _ ∧ (f.withTy _).den S ρ _ = _
    rw [hf.withTy_self, denChain_one S ρ hf]
    exact ⟨hf, rfl⟩
  | f :: g :: es, _, hm => exact ⟨.compose (by simp) hm, rfl⟩

/-! ## Exponential eta -/

/-- If the steps after the application have a meaning, the function that is applied is defined at
every key. -/
def CurriedTotal (e : Expr) : Prop := ∀ zip u suffix s v a b c c' q p fs w,
    e = .apply (.compose (zip :: .builtin .apply u :: suffix) s) (.builtin .curry v)
      (.fn a (.fn b c)) →
    u.codomain = some c' → zip.asZip = some (q, .compose (p :: fs) w) →
      (denChain S ρ suffix c' c).isSome →
        ∀ f, denChain S ρ fs a (.fn b c') = some f → ∀ k, (f k).isSome

lemma typed_map {g : Expr} {c : Ty} (hg : Typed Γ g (.fn b c)) (ha : a.resolved = true) :
    Means S ρ Γ (applyPrimitive g .map (.fn (.fn a b) (.fn a c))) (.fn (.fn a b) (.fn a c))
      ((g.den S ρ (.fn b c)).map fun g x => some fun y => (x y).bind g) := by
  have hbc := Ty.resolved_fn.mp hg.resolved
  refine ⟨typed_applyPrimitive hg (.map a b c) ?_, ?_⟩
  · simp only [Ty.resolved_fn]
    exact ⟨⟨ha, hbc.1⟩, ha, hbc.2⟩
  · rw [applyPrimitive, den_apply_builtin S ρ hg.ty_eq (Builtin.den_map S a b c)]
    cases g.den S ρ (.fn b c) <;> rfl

lemma curriedTotal_iff {zip p q : Expr} {suffix fs : List Expr} {c d s u v w : Ty}
    (hu : u.codomain = some d) (hz : zip.asZip = some (q, .compose (p :: fs) w)) :
    CurriedTotal S ρ (.apply (.compose (zip :: .builtin .apply u :: suffix) s) (.builtin .curry v)
      (.fn a (.fn b c))) ↔ ((denChain S ρ suffix d c).isSome →
        ∀ f, denChain S ρ fs a (.fn b d) = some f → ∀ k, (f k).isSome) := by
  constructor
  · intro h
    exact h _ _ _ _ _ _ _ _ _ _ _ _ _ rfl hu hz
  · rintro h _ _ _ _ _ _ _ _ _ _ _ _ _ ⟨⟩ hu' hz'
    cases hu.symm.trans hu'
    cases hz.symm.trans hz'
    exact h

lemma exponentialEta_iff (ht : Typed Γ e t) (h : exponentialEta e = some e') :
    Typed Γ e' t ∧ (e'.den S ρ t = e.den S ρ t ↔ CurriedTotal S ρ e) := by
  unfold exponentialEta at h
  split at h
  case h_2 => cases h
  rename_i zip u suffix s v curryTy
  split at h
  case h_2 => cases h
  rename_i q arm hz
  split at h
  case isFalse => cases h
  rename_i harm
  cases ht with | apply hbody hf => cases hf with | builtin hb hcurry =>
  cases hb with | curry a b c =>
  cases hbody with | compose _ hbody =>
  cases hbody with | cons hzip hbody => cases hbody with | cons happ hsuffix =>
  have hbody' : Typed Γ (.compose (zip :: .builtin .apply u :: suffix)
      (.fn (.tuple [a, b]) c)) (.fn (.tuple [a, b]) c) :=
    .compose (by simp) (.cons hzip (.cons happ hsuffix))
  have hres := Ty.resolved_fn.mp (Ty.resolved_fn.mp hcurry).2
  have hb := (Ty.resolved_fn.mp hres.2).1
  obtain ⟨_, rfl, hq, harm', hwin⟩ := hzip.apply_window S ρ hz happ
  have hucod : u.codomain = some _ := happ.codomain_eq
  rename_i c' x
  have hq' := hq
  cases hq with | proj hi _ =>
  obtain rfl : b = x := by simpa using hi
  have hden : (Expr.apply (.compose (zip :: .builtin .apply u :: suffix)
        (.fn (.tuple [a, b]) c)) (.builtin .curry (.fn (.fn (.tuple [a, b]) c)
        (.fn a (.fn b c)))) (.fn a (.fn b c))).den S ρ (.fn a (.fn b c)) =
      PFn.curry (PFn.seq (PFn.seq (PFn.pair (some fun v => some v.2.1)
        (arm.den S ρ (.fn (.tuple [a, b]) (.fn b c')))) PFn.eval)
        (denChain S ρ suffix c' c)) := by
    rw [den_apply_builtin S ρ hbody'.ty_eq (Builtin.den_curry S a b c), den,
      denChain_cons S ρ hzip, denChain_cons S ρ happ, ← PFn.seq_assoc, hwin,
      den_proj_one]
    simp only [PFn.curry]
    rcases PFn.seq _ _ with - | g <;> rfl
  rw [hden]
  unfold isEtaApplyArm at harm
  split at harm
  · rename_i i w
    obtain rfl : i = 0 := by simpa using harm
    refine (and_congr_right fun _ => iff_true_right ?_).mpr ?_
    · rintro _ _ _ _ _ _ _ _ _ _ _ _ _ ⟨⟩ - hz'
      simp [hz] at hz'
    cases harm' with | proj hi0 _ =>
    obtain rfl : a = .fn b c' := by simpa using hi0
    rw [den_proj_zero, PFn.curry_apply]
    cases suffix with
    | nil =>
      cases hsuffix
      obtain rfl : .builtin .id (.fn (.fn b c) (.fn b c)) = e' := by simpa using h
      refine ⟨.builtin (.id _) (Ty.resolved_fn.mpr hres), ?_⟩
      rw [den, Builtin.den_id, denChain_nil]
      simp [PFn.id]
    | cons g gs =>
      obtain ⟨hg, hgden⟩ := typed_collapseCompose S ρ (List.cons_ne_nil g gs) hsuffix
      obtain ⟨hmap, hmden⟩ := typed_map S ρ hg hb
      obtain rfl : applyPrimitive (collapseCompose (g :: gs)) .map
          (.fn (.fn b c') (.fn b c)) = e' := by simpa using h
      exact ⟨hmap, by rw [hmden, hgden]⟩
  · rename_i p f fs w
    obtain ⟨pt, rfl⟩ := isProjIdx_iff.mp harm
    rw [curriedTotal_iff S ρ hucod hz]
    cases harm' with | compose hlen harm' => cases harm' with | cons hp hfs =>
    have hp' := hp
    cases hp with | proj hi0 hpair =>
    rename_i a'
    obtain rfl : a = a' := by simpa using hi0
    rw [den, denChain_cons S ρ hp', den_proj_zero, ← PFn.curry_seq_apply_iff]
    obtain ⟨hf, hfden⟩ := typed_collapseCompose S ρ (List.cons_ne_nil f fs) hfs
    cases suffix with
    | nil =>
      cases hsuffix
      obtain rfl : collapseCompose (f :: fs) = e' := by simpa using h
      refine ⟨hf, ?_⟩
      have hid : (PFn.id : PFn (c.Val W) (c.Val W)).map
          (fun g (x : b.Val W → Option (c.Val W)) => some fun y => (x y).bind g) =
            PFn.id := by simp [PFn.id]
      rw [hfden, denChain_nil, hid, PFn.seq_id, PFn.seq_id]
    | cons g gs =>
      obtain ⟨hg, hgden⟩ := typed_collapseCompose S ρ (List.cons_ne_nil g gs) hsuffix
      obtain ⟨hmap, hmden⟩ := typed_map S ρ hg hb
      obtain rfl : .compose [collapseCompose (f :: fs),
          applyPrimitive (collapseCompose (g :: gs)) .map (.fn (.fn b c') (.fn b c))]
          (.fn a (.fn b c)) = e' := by simpa [hf.codomain_eq] using h
      obtain ⟨hnew, hden'⟩ := Means.seq S ρ ⟨hf, hfden⟩ ⟨hmap, hmden⟩
      exact ⟨hnew, by rw [hden', hgden]⟩
  · cases harm

end Cambra.Ccl
