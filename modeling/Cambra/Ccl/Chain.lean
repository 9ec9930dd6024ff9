import Cambra.Ccl.Meaning

/-!
# Chains, zips and lifted terms

The shapes the simplifier matches on, read as partial functions.  A typed chain is the composition
of its steps (`denChain_cons`, `denChain_append`), and the matchers give, on a typed term, the types
of the parts and the meaning of the whole: `⟨f, g⟩` is the product of its arms
(`Typed.of_asZip`, and `Typed.of_asZipArms` for any number), `c ▷ const` the constant function,
`f ▷ curry` the curried one.  The builders make typed terms with the meanings their names say.
-/

namespace Cambra.Ccl

variable {W : Keys} (S : Scalars W) (ρ : Env W) {Γ : Ctx}

open Cambra.Ccl.Expr

/-! ## Stamps -/

variable {e f : Expr} {t a b c s u : Ty} {es : List Expr} {bs : List Ty}

lemma Typed.withTy_self (h : Typed Γ e t) : e.withTy t = e := by
  obtain rfl := h.ty_eq
  exact withTy_ty e

lemma Typed.domain_eq (h : Typed Γ e (.fn a b)) : e.ty.domain = some a := by
  rw [h.ty_eq]; rfl

lemma Typed.codomain_eq (h : Typed Γ e (.fn a b)) : e.ty.codomain = some b := by
  rw [h.ty_eq]; rfl

/-! ## Chains -/

@[simp] lemma denChain_nil (a : Ty) : denChain S ρ [] a a = PFn.id := by simp [denChain, PFn.id]

lemma denChain_cons (h : Typed Γ e (.fn a b)) :
    denChain S ρ (e :: es) a c = PFn.seq (e.den S ρ (.fn a b)) (denChain S ρ es b c) := by
  rw [denChain, h.codomain_eq]
  dsimp only
  cases e.den S ρ (.fn a b) <;> cases denChain S ρ es b c <;> rfl

lemma denChain_singleton (h : e.ty.codomain = some b) :
    denChain S ρ [e] a b = e.den S ρ (.fn a b) := by
  rw [denChain, h]
  dsimp only
  rw [denChain_nil]
  cases hd : e.den S ρ (.fn a b) <;> simp [PFn.id]

lemma denChain_one (h : Typed Γ e (.fn a b)) : denChain S ρ [e] a b = e.den S ρ (.fn a b) :=
  denChain_singleton S ρ h.codomain_eq

/-- The term has the type, and at it the meaning. -/
structure Means (Γ : Ctx) (e : Expr) (t : Ty) (d : Option (t.Val W)) : Prop where
  typed : Typed Γ e t
  den : e.den S ρ t = d

lemma Means.seq {g : Expr} {x : PFn (a.Val W) (b.Val W)} {y : PFn (b.Val W) (c.Val W)}
    (hf : Means S ρ Γ f (.fn a b) x) (hg : Means S ρ Γ g (.fn b c) y) :
    Means S ρ Γ (.compose [f, g] (.fn a c)) (.fn a c) (PFn.seq x y) := by
  refine ⟨.compose (by simp) (.cons hf.typed (.cons hg.typed .nil)), ?_⟩
  rw [Expr.den, denChain_cons S ρ hf.typed, denChain_one S ρ hg.typed, hf.den, hg.den]

lemma denChain_append {fs : List Expr} (h : TypedChain Γ es a b) :
    denChain S ρ (es ++ fs) a c = PFn.seq (denChain S ρ es a b) (denChain S ρ fs b c) := by
  induction es generalizing a with
  | nil => cases h; simp
  | cons e es ih =>
    cases h with
    | cons he hes =>
      rw [List.cons_append, denChain_cons S ρ he, denChain_cons S ρ he, ih hes, PFn.seq_assoc]

lemma typedChain_append {fs : List Expr} :
    TypedChain Γ (es ++ fs) a c ↔ ∃ b, TypedChain Γ es a b ∧ TypedChain Γ fs b c := by
  induction es generalizing a with
  | nil =>
    refine ⟨fun h => ⟨a, .nil, h⟩, ?_⟩
    rintro ⟨b, ⟨⟩, h⟩
    exact h
  | cons e es ih =>
    constructor
    · rintro (_ | ⟨he, hes⟩)
      obtain ⟨b, h, h'⟩ := ih.mp hes
      exact ⟨b, .cons he h, h'⟩
    · rintro ⟨b, _ | ⟨he, hes⟩, h'⟩
      exact .cons he (ih.mpr ⟨b, hes, h'⟩)

lemma TypedChain.unique {b' : Ty} (h : TypedChain Γ es a b) (h' : TypedChain Γ es a b') :
    b = b' := by
  induction es generalizing a with
  | nil => cases h; cases h'; rfl
  | cons e es ih =>
    cases h with | cons he hes => cases h' with | cons he' hes' =>
    cases he.ty_eq.symm.trans he'.ty_eq
    exact ih hes hes'

lemma typedChain_one : TypedChain Γ [e] a b ↔ Typed Γ e (.fn a b) := by
  refine ⟨?_, fun h => .cons h .nil⟩
  rintro (_ | ⟨h, ⟨⟩⟩)
  exact h

lemma TypedTuple.get {e : Expr} {t : Ty} : ∀ {es : List Expr} {ts : List Ty} {i : ℕ},
    TypedTuple Γ es ts → es[i]? = some e → ts[i]? = some t → Typed Γ e t
  | [], _, _, _, he, _ => by simp at he
  | _ :: _, _ :: _, 0, .cons h _, he, ht => by
    cases he
    cases ht
    exact h
  | _ :: _, _ :: _, i + 1, .cons _ hs, he, ht =>
    hs.get (i := i) (by simpa using he) (by simpa using ht)

/-! ## Applications of built-ins -/

lemma den_apply_of (hs : e.ty = s) : (Expr.apply e f u).den S ρ t =
      (f.den S ρ (.fn s t)).bind fun g => (e.den S ρ s).bind g := by
  subst hs
  simp [den]

lemma den_apply_builtin {b : Builtin} {u' : Ty} {f : s.Val W → Option (t.Val W)} (hs : e.ty = s)
    (hb : b.den S (.fn s t) = some f) :
    (Expr.apply e (.builtin b u) u').den S ρ t = (e.den S ρ s).bind f := by
  rw [den_apply_of S ρ hs, den, hb]
  rfl

lemma den_const_at {c : Expr} {u' : Ty} (hc : c.ty = b) :
    (Expr.apply c (.builtin .const u) u').den S ρ (.fn a b) = PFn.const (c.den S ρ b) := by
  rw [den_apply_builtin S ρ hc (Builtin.den_const S b a)]
  cases c.den S ρ b <;> rfl

/-- `c ▷ const` is a constant function. -/
lemma Typed.of_asConst {c : Expr} (h : Typed Γ e t) (hc : e.asConst = some c) :
    ∃ a b, t = .fn a b ∧ Typed Γ c b ∧ e.den S ρ (.fn a b) = PFn.const (c.den S ρ b) := by
  unfold asConst at hc
  split at hc
  · cases hc
    cases h with | apply hc hf => cases hf with | builtin hb _ => cases hb with | const =>
    exact ⟨_, _, rfl, hc, den_const_at S ρ hc.ty_eq⟩
  · cases hc

lemma den_proj_zero {ts : List Ty} : (Expr.proj 0 (.fn (.tuple (a :: ts)) a)).den S ρ
    (.fn (.tuple (a :: ts)) a) = some fun v => some v.1 := by simp [den, projDen, Vals.nth]

lemma den_proj_one {ts : List Ty} : (Expr.proj 1 (.fn (.tuple (a :: b :: ts)) b)).den S ρ
    (.fn (.tuple (a :: b :: ts)) b) = some fun v => some v.2.1 := by
  simp [den, projDen, Vals.nth]

lemma typed_const {c : Expr} (hc : Typed Γ c b) (ha : a.resolved = true) :
    Typed Γ (.apply c (.builtin .const (.computeFunOrHole c.ty (.fn a b))) (.fn a b))
        (.fn a b) := by
  have hres : (Ty.fn a b).resolved = true := Ty.resolved_fn.mpr ⟨ha, hc.resolved⟩
  rw [hc.ty_eq, Ty.computeFunOrHole_eq hc.resolved hres]
  exact .apply hc (.builtin (.const b a) (Ty.resolved_fn.mpr ⟨hc.resolved, hres⟩))

/-- `f ▷ curry` is `f` curried. -/
lemma Typed.of_asCurry (h : Typed Γ e t) (hf : e.asCurry = some f) :
    ∃ a b c, t = .fn a (.fn b c) ∧ Typed Γ f (.fn (.tuple [a, b]) c) ∧
      e.den S ρ (.fn a (.fn b c)) = PFn.curry (f.den S ρ (.fn (.tuple [a, b]) c)) := by
  unfold asCurry at hf
  split at hf
  · cases hf
    cases h with | apply hc hf => cases hf with | builtin hb _ => cases hb with | curry =>
    refine ⟨_, _, _, rfl, hc, ?_⟩
    rw [den_apply_builtin S ρ hc.ty_eq (Builtin.den_curry S _ _ _)]
    cases f.den S ρ _ <;> rfl
  · cases hf

/-! ## Zips -/

/-- The product of the arms of a zip. -/
def zipDen (a : Ty) : List Expr → (bs : List Ty) → PFn (a.Val W) (Vals W bs)
  | [], [] => PFn.nil
  | e :: es, b :: bs => PFn.cons (e.den S ρ (.fn a b)) (zipDen a es bs)
  | _, _ => none

lemma denTuple_zip (a : Ty) : ∀ (es : List Expr) (bs : List Ty),
      (denTuple S ρ es (bs.map (Ty.fn a))).map (zipVals a bs) = zipDen S ρ a es bs
  | [], [] | [], _ :: _ | _ :: _, [] => rfl
  | e :: es, b :: bs => by
    rw [zipDen, ← denTuple_zip a es bs]
    change (denTuple S ρ (e :: es) (.fn a b :: bs.map (Ty.fn a))).map (zipVals a (b :: bs)) = _
    rw [denTuple]
    cases e.den S ρ (.fn a b) with
    | none => rfl
    | some f =>
      cases denTuple S ρ es (bs.map (Ty.fn a)) with
      | none => rfl
      | some fs =>
        refine congrArg some (funext fun v => ?_)
        change ((f v).bind fun w => (zipVals a bs fs v).bind fun ws => some (w, ws)) =
          (f v).bind fun w => (zipVals a bs fs v).map fun ws => (w, ws)
        cases f v <;> cases zipVals a bs fs v <;> rfl

lemma typed_zip_arms (h : Typed Γ (.apply (.tuple es s) (.builtin .zip u) t) t) :
    ∃ a bs, t = .fn a (.tuple bs) ∧ TypedTuple Γ es (bs.map (Ty.fn a)) ∧
      (Expr.apply (.tuple es s) (.builtin .zip u) t).den S ρ (.fn a (.tuple bs)) =
        zipDen S ρ a es bs := by
  cases h with | apply he hf => cases hf with | builtin hb _ => cases hb with | zip a bs =>
  cases he with | tuple hes =>
  refine ⟨a, bs, rfl, hes, ?_⟩
  rw [den_apply_builtin S ρ (s := .tuple (bs.map (Ty.fn a))) rfl (Builtin.den_zip S a bs),
    ← denTuple_zip, den]
  cases denTuple S ρ es (bs.map (Ty.fn a)) <;> rfl

/-- `⟨f₀, …, fₙ⟩` is the product of its arms. -/
lemma Typed.of_asZipArms (h : Typed Γ e t) (hz : e.asZipArms = some es) :
    2 ≤ es.length ∧ ∃ a bs, t = .fn a (.tuple bs) ∧ TypedTuple Γ es (bs.map (Ty.fn a)) ∧
      e.den S ρ (.fn a (.tuple bs)) = zipDen S ρ a es bs := by
  unfold asZipArms at hz
  split at hz
  · split at hz
    · cases hz
      obtain rfl := h.ty_eq
      exact ⟨‹_›, typed_zip_arms S ρ h⟩
    · cases hz
  · cases hz

/-- `⟨f, g⟩` is the product of `f` and `g`. -/
lemma Typed.of_asZip {g : Expr} (h : Typed Γ e t) (hz : e.asZip = some (f, g)) :
    ∃ a b c, t = .fn a (.tuple [b, c]) ∧ Typed Γ f (.fn a b) ∧ Typed Γ g (.fn a c) ∧
      e.den S ρ (.fn a (.tuple [b, c])) = PFn.pair (f.den S ρ (.fn a b)) (g.den S ρ (.fn a c)) := by
  unfold asZip at hz
  split at hz
  · cases hz
    obtain rfl := h.ty_eq
    obtain ⟨a, bs, rfl, hes, hden⟩ := typed_zip_arms S ρ h
    match bs, hes with
    | [b, c], .cons hf (.cons hg .nil) => exact ⟨a, b, c, rfl, hf, hg, hden⟩
  · cases hz

/-! ## Builders -/

lemma typed_collapseTo (h : Typed Γ e (.fn a b)) : e.collapseTo (.fn a b) = e := by
  unfold collapseTo
  split
  · cases h with | apply hc hf =>
    have hu := hf.ty_eq
    rw [Ty.computeFunOrHole_eq (by rw [hc.ty_eq]; exact hc.resolved)
      (Ty.resolved_fn.mp hf.resolved).2, hc.ty_eq]
    simp only [ty] at hu
    rw [hu]
  · exact h.withTy_self

lemma rebuild_of_two (h : 2 ≤ es.length) : rebuild es t = .compose es t := by
  match es, h with
  | _ :: _ :: _, _ => rfl

lemma typed_rebuild (hne : es ≠ []) (h : TypedChain Γ es a c) :
    Means S ρ Γ (rebuild es (.fn a c)) (.fn a c) (denChain S ρ es a c) := by
  match es, hne, h with
  | [e], _, h =>
    have he := typedChain_one.mp h
    rw [rebuild, typed_collapseTo he, denChain_one S ρ he]
    exact ⟨he, rfl⟩
  | e :: f :: es, _, h => exact ⟨.compose (by simp) h, rfl⟩

lemma chainTy_eq (hne : es ≠ []) (h : TypedChain Γ es a c) : chainTy es = .fn a c := by
  have hlast : ∀ {es : List Expr} {a : Ty}, es ≠ [] → TypedChain Γ es a c →
      es.getLast?.bind (·.ty.codomain) = some c := by
    intro es
    induction es with
    | nil => simp
    | cons e es ih =>
      rintro a - (_ | ⟨he, hes⟩)
      cases es with
      | nil => cases hes; simp [he.codomain_eq]
      | cons f fs => simpa using ih (by simp) hes
  cases h with
  | nil => exact absurd rfl hne
  | cons he hes =>
    rw [chainTy, hlast hne (.cons he hes)]
    simp [he.domain_eq, Ty.funOrHole]

/-- One morphism out of a chain is the chain. -/
lemma typed_collapseCompose (hne : es ≠ []) (h : TypedChain Γ es a c) :
    Means S ρ Γ (collapseCompose es) (.fn a c) (denChain S ρ es a c) := by
  match es, hne, h with
  | [e], _, h =>
    have he := typedChain_one.mp h
    exact ⟨he, (denChain_one S ρ he).symm⟩
  | e :: f :: es, hne, h =>
    rw [collapseCompose, chainTy_eq hne h]
    · exact ⟨.compose (by simp) h, rfl⟩
    · simp

lemma typed_typedTuple {ts : List Ty} (h : TypedTuple Γ es ts) :
    Typed Γ (typedTuple es) (.tuple ts) := by
  have hts : es.map Expr.ty = ts := by
    induction es generalizing ts with
    | nil => cases h; rfl
    | cons e es ih =>
      cases h with
      | cons he hes => rw [List.map_cons, he.ty_eq, ih hes]
  rw [typedTuple, hts]
  exact .tuple h

lemma typed_applyPrimitive {b : Builtin} (he : Typed Γ e s) (hb : b.HasTy (.fn s t))
    (ht : t.resolved = true) : Typed Γ (applyPrimitive e b t) t := by
  rw [applyPrimitive, he.ty_eq]
  exact .apply he (.builtin hb (Ty.resolved_fn.mpr ⟨he.resolved, ht⟩))

lemma resolved_product (hne : es ≠ []) (h : TypedTuple Γ es (bs.map (Ty.fn a))) :
    (Ty.fn a (.tuple bs)).resolved = true := by
  have hres := Ty.allResolved_iff.mp h.resolved
  have hbs : ∀ b ∈ bs, a.resolved = true ∧ b.resolved = true := fun b hb =>
    Ty.resolved_fn.mp (hres _ (List.mem_map_of_mem hb))
  cases bs with
  | nil => cases h; exact absurd rfl hne
  | cons b bs =>
    exact Ty.resolved_fn.mpr ⟨(hbs b (by simp)).1, Ty.allResolved_iff.mpr fun c hc => (hbs c hc).2⟩

lemma typed_zipPair {g : Expr} (hf : Typed Γ f (.fn a b)) (hg : Typed Γ g (.fn a c)) :
    Means S ρ Γ (zipPair f g) (.fn a (.tuple [b, c]))
      (PFn.pair (f.den S ρ (.fn a b)) (g.den S ρ (.fn a c))) := by
  have hty : zipPairTy f g = .fn a (.tuple [b, c]) := by simp [zipPairTy, hf.ty_eq, hg.ty_eq]
  have hfg := typed_typedTuple (.cons hf (.cons hg .nil))
  have hres : (Ty.fn a (.tuple [b, c])).resolved = true := resolved_product (List.cons_ne_nil f [g])
      (show TypedTuple Γ _ ([b, c].map (Ty.fn a)) from .cons hf (.cons hg .nil))
  have h : Typed Γ (zipPair f g) (.fn a (.tuple [b, c])) := by
    rw [zipPair, hty, hfg.ty_eq, Ty.computeFunOrHole_eq hfg.resolved hres]
    exact .apply hfg (.builtin (.zip a [b, c]) (Ty.resolved_fn.mpr ⟨hfg.resolved, hres⟩))
  obtain ⟨_, _, _, heq, -, -, hden⟩ := h.of_asZip S ρ (f := f) (g := g) rfl
  cases heq
  exact ⟨h, hden⟩

lemma mapM_codomain (h : TypedTuple Γ es (bs.map (Ty.fn a))) :
    es.mapM (·.ty.codomain) = some bs := by
  induction es generalizing bs with
  | nil =>
    cases bs with
    | nil => rfl
    | cons b bs => cases h
  | cons e es ih =>
    cases bs with
    | nil => cases h
    | cons b bs =>
      cases h with
      | cons he hes => simp [he.codomain_eq, ih hes]

lemma typed_zipOf (hne : es ≠ []) (h : TypedTuple Γ es (bs.map (Ty.fn a))) :
    Means S ρ Γ (zipOf es) (.fn a (.tuple bs)) (zipDen S ρ a es bs) := by
  unfold zipOf
  split
  · match bs, h with
    | [b, c], .cons hf (.cons hg .nil) => exact typed_zipPair S ρ hf hg
  have hty : zipOfTy es = .fn a (.tuple bs) := by
    rw [zipOfTy, mapM_codomain h]
    cases es with
    | nil => exact absurd rfl hne
    | cons e es =>
      cases bs with
      | nil => cases h
      | cons b bs => cases h with | cons he hes => simp [he.domain_eq, Ty.funOrHole]
  have hes := typed_typedTuple h
  have hres := resolved_product hne h
  have htyped : Typed Γ (.apply (typedTuple es)
      (.builtin .zip (.computeFunOrHole (typedTuple es).ty (zipOfTy es))) (zipOfTy es))
      (.fn a (.tuple bs)) := by
    rw [hty, hes.ty_eq, Ty.computeFunOrHole_eq hes.resolved hres]
    exact .apply hes (.builtin (.zip a bs) (Ty.resolved_fn.mpr ⟨hes.resolved, hres⟩))
  refine ⟨htyped, ?_⟩
  rw [den_apply_builtin S ρ hes.ty_eq (Builtin.den_zip S a bs), ← denTuple_zip]
  cases hd : denTuple S ρ es (bs.map (Ty.fn a)) <;> simp [typedTuple, den, hd]

lemma TypedTuple.map_arms {a b : Ty} {lift : Expr → Expr}
    (hlift : ∀ e c, Typed Γ e (.fn b c) → Typed Γ (lift e) (.fn a c)) :
    ∀ {es : List Expr} {cs : List Ty}, TypedTuple Γ es (cs.map (Ty.fn b)) →
      TypedTuple Γ (es.map lift) (cs.map (Ty.fn a))
  | [], [], _ => .nil
  | e :: _, c :: _, .cons he hes => .cons (hlift e c he) (hes.map_arms hlift)

/-- What stands before a zip moves into its arms, if it has any. -/
lemma TypedTuple.seq_zipDen {a b : Ty} (l : PFn (a.Val W) (b.Val W)) {lift : Expr → Expr}
    (hlift : ∀ e c, Typed Γ e (.fn b c) →
      (lift e).den S ρ (.fn a c) = PFn.seq l (e.den S ρ (.fn b c))) :
    ∀ {es : List Expr} {cs : List Ty}, TypedTuple Γ es (cs.map (Ty.fn b)) → es ≠ [] →
      PFn.seq l (zipDen S ρ b es cs) = zipDen S ρ a (es.map lift) cs
  | [], _, _, h => absurd rfl h
  | [e], [c], .cons he .nil, _ => by
    simp only [List.map_cons, List.map_nil, zipDen, hlift e c he]
    exact PFn.seq_cons_nil l _
  | e :: f :: es, c :: d :: cs, .cons he hes, _ => by
    have ih := hes.seq_zipDen l hlift (by simp)
    change PFn.seq l (PFn.cons (e.den S ρ (.fn b c)) (zipDen S ρ b (f :: es) (d :: cs))) =
      PFn.cons ((lift e).den S ρ (.fn a c)) (zipDen S ρ a ((f :: es).map lift) (d :: cs))
    rw [hlift e c he, ← ih]
    exact PFn.seq_cons l _ _

/-- A zip read at one of its arms: the arm, where the zip is defined. -/
lemma zipDen_nth (a b : Ty) (e : Expr) : ∀ (es : List Expr) (bs : List Ty) (i : ℕ),
    es[i]? = some e → bs[i]? = some b → PFn.seq (zipDen S ρ a es bs) (some (Vals.nth bs i b)) =
        PFn.guard (zipDen S ρ a es bs) (e.den S ρ (.fn a b))
  | [], _, _, he, _ => by simp at he
  | _ :: _, [], _, _, hb => by simp at hb
  | f :: es, c :: bs, 0, he, hb => by
    obtain rfl : f = e := by simpa using he
    obtain rfl : c = b := by simpa using hb
    rw [zipDen, ← PFn.cons_seq_fst]
    congr 2
    funext vs
    exact Ty.read_self c vs.1
  | f :: es, c :: bs, i + 1, he, hb => by
    have ih := zipDen_nth a b e es bs i (by simpa using he) (by simpa using hb)
    rw [zipDen]
    rcases f.den S ρ (.fn a c) with - | g
    · rfl
    revert ih
    rcases zipDen S ρ a es bs with - | z
    · exact fun _ => rfl
    rcases e.den S ρ (.fn a b) with - | k
    · simp [PFn.seq, PFn.guard]
    intro ih
    simp only [PFn.seq, PFn.guard, PFn.cons, Option.map_some, Option.bind_some,
      Option.some.injEq] at ih ⊢
    funext v
    have hv := congrFun ih v
    cases g v <;> cases hz : z v <;> simp_all [Vals.nth]

end Cambra.Ccl
