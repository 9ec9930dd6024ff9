import Cambra.Ccl.Nodes

/-!
# Uncurrying a curried nest

`uncurryCurried` turns `uncurry(n)` of a nest of collections that ends in a curried morphism into a
morphism of the tuple of keys: the first key goes through the steps before the curry, the second
through the collection composed in front of it, and the others are read as they are.  That is
exact.  Where the nest ends in a lifted constant the steps before it are dropped, so that they have
to be defined at the first key wherever the constant nest has a value at the others
(`ConstantNestDefined`).
-/

namespace Cambra.Ccl

variable {W : Keys} (S : Scalars W) (ρ : Env W) {Γ : Ctx}

open Cambra.Ccl.Expr

/-! ## Tuples of keys -/

lemma TypedTuple.of_get : ∀ {es : List Expr} {ts : List Ty}, es.length = ts.length →
    (∀ (j : ℕ) e t, es[j]? = some e → ts[j]? = some t → Typed Γ e t) → TypedTuple Γ es ts
  | [], [], _, _ => .nil
  | e :: es, t :: ts, hlen, h =>
    .cons (h 0 e t rfl rfl) (.of_get (by simpa using hlen) fun j e t he ht =>
      h (j + 1) e t (by simpa using he) (by simpa using ht))

/-- A zip whose arms read the components of one tuple builds the tuple. -/
lemma zipDen_read {a : Ty} : ∀ {es : List Expr} {ts : List Ty} (get : a.Val W → Vals W ts),
    es.length = ts.length →
    (∀ (j : ℕ) e t, es[j]? = some e → ts[j]? = some t →
      e.den S ρ (.fn a t) = some fun v => Vals.nth ts j t (get v)) →
    zipDen S ρ a es ts = some fun v => some (get v)
  | [], [], _, _, _ => rfl
  | e :: es, t :: ts, get, hlen, h => by
    have he := h 0 e t rfl rfl
    have hes := zipDen_read (fun v => (get v).2) (by simpa using hlen) fun j e t he ht =>
      h (j + 1) e t (by simpa using he) (by simpa using ht)
    rw [zipDen, he, hes]
    refine congrArg some (funext fun v => ?_)
    simp [Vals.nth]

variable {i : ℕ} {parts rest : List Ty} {t m value p q : Ty} {s : List Expr}

lemma typed_keyProj (hi : parts[i]? = some t) (hres : (Ty.tuple parts).resolved = true) :
    Means S ρ Γ (keyProj parts i) (.fn (.tuple parts) t) (some (Vals.nth parts i t)) := by
  have hkey : keyProj parts i = .proj i (.fn (.tuple parts) t) := by simp [keyProj, hi]
  rw [hkey]
  exact ⟨.proj hi hres, by rw [Expr.den, projDen, if_pos hi]⟩

lemma typed_readThrough {es : List Expr} (hi : parts[i]? = some t)
    (hres : (Ty.tuple parts).resolved = true) (hes : TypedChain Γ es t m) :
    Means S ρ Γ (readThrough (.tuple parts) (keyProj parts i) es) (.fn (.tuple parts) m)
      (PFn.seq (some (Vals.nth parts i t)) (denChain S ρ es t m)) := by
  have hp := typed_keyProj S ρ (Γ := Γ) hi hres
  match es, hes with
  | [], .nil =>
    rw [denChain_nil, PFn.seq_id]
    exact hp
  | [c], .cons hc .nil =>
    rw [readThrough, hc.codomain_eq]
    exact hp.seq S ρ ⟨hc, (denChain_one S ρ hc).symm⟩
  | c :: c' :: es, hes =>
    rw [readThrough, chainTy_eq (List.cons_ne_nil _ _) hes]
    · exact hp.seq S ρ ⟨.compose (by simp) hes, rfl⟩
    · simp
    · simp

/-- The keys from the `i`-th on, as arms of a zip. -/
def keyProjs (parts : List Ty) (i : ℕ) : List Expr :=
  ((List.range parts.length).drop i).map (keyProj parts)

/-- A zip of the keys from the `i`-th on gives them, `get` reading them off the tuple. -/
lemma typed_keyProjs (hres : (Ty.tuple parts).resolved = true)
    (hlen : i + rest.length = parts.length) (get : (Ty.tuple parts).Val W → Vals W rest)
    (hget : ∀ (j : ℕ) t, rest[j]? = some t → parts[i + j]? = some t ∧
      ∀ ks, Vals.nth parts (i + j) t ks = Vals.nth rest j t (get ks)) :
    TypedTuple Γ (keyProjs parts i) (rest.map (Ty.fn (.tuple parts))) ∧
      zipDen S ρ (.tuple parts) (keyProjs parts i) rest = some fun ks => some (get ks) := by
  have hl : (keyProjs parts i).length = rest.length := by
    simp only [keyProjs, List.length_map, List.length_drop, List.length_range]
    omega
  have harm : ∀ (j : ℕ) e, (keyProjs parts i)[j]? = some e → e = keyProj parts (i + j) := by
    intro j e he
    simp only [keyProjs, List.getElem?_map, List.getElem?_drop, Option.map_eq_some_iff,
      List.getElem?_eq_some_iff, List.getElem_range] at he
    obtain ⟨k, ⟨_, rfl⟩, rfl⟩ := he
    rfl
  have hkey : ∀ (j : ℕ) e t, (keyProjs parts i)[j]? = some e → rest[j]? = some t →
      Typed Γ e (.fn (.tuple parts) t) ∧
        e.den S ρ (.fn (.tuple parts) t) = some fun ks => Vals.nth rest j t (get ks) := by
    intro j e t he ht
    obtain ⟨hi, hnth⟩ := hget j t ht
    obtain rfl := harm j e he
    obtain ⟨hty, hden⟩ := typed_keyProj S ρ (Γ := Γ) hi hres
    exact ⟨hty, by rw [hden]; exact congrArg some (funext hnth)⟩
  refine ⟨.of_get (by rw [hl, List.length_map]) fun j e t he ht => ?_,
    zipDen_read S ρ get hl fun j e t he ht => (hkey j e t he ht).2⟩
  rw [List.getElem?_map, Option.map_eq_some_iff] at ht
  obtain ⟨t, ht, rfl⟩ := ht
  exact (hkey j e t he ht).1

/-! ## Nests -/

/-- A morphism into a nest of collections, over the tuple of its argument and the nest's keys; with
no level left it is the morphism. -/
lemma flattened_one {f : Expr} : flattened f 1 rest value = f := by simp [flattened]

/-- A function into a nest, read at its argument and all the nest's keys. -/
def readNest {d : Ty} (f : PFn (d.Val W) ((Ty.nest rest value).Val W)) :
    PFn ((Ty.tuple (d :: rest)).Val W) (value.Val W) :=
  f.map fun f ks => (f ks.1).bind fun g => unnest value rest g ks.2

lemma readNest_const {d : Ty} (f : PFn (d.Val W) (m.Val W))
    (c : Option ((Ty.nest rest value).Val W)) :
    readNest (PFn.seq f (PFn.const c)) = PFn.guard (PFn.seq (some fun ks => some ks.1) f)
      (c.map fun g ks => unnest value rest g ks.2) := by
  rcases f with - | f
  · rfl
  rcases c with - | g
  · rfl
  refine congrArg some (funext fun ks => ?_)
  cases hf : f ks.1 <;> simp [hf]

lemma typed_flattened {f : Expr} {d : Ty} (hf : Typed Γ f (.fn d (.nest (p :: rest) value)))
    (hrest : (Ty.tuple (p :: rest)).resolved = true) (hvalue : value.resolved = true) :
    Means S ρ Γ (flattened f (rest.length + 2) (p :: rest) value)
      (.fn (.tuple (d :: p :: rest)) value)
      (readNest (f.den S ρ (.fn d (.nest (p :: rest) value)))) := by
  have hflat : flattened f (rest.length + 2) (p :: rest) value =
      applyPrimitive f (.uncurry (d :: p :: rest).length)
          (.fn (.tuple (d :: p :: rest)) value) := by
    simp [flattened, hf.domain_eq]
  have hd := (Ty.resolved_fn.mp hf.resolved).1
  have hlen : 2 ≤ (d :: p :: rest).length := by simp
  rw [hflat]
  refine ⟨typed_applyPrimitive hf (.uncurry (d :: p :: rest) value hlen) ?_, ?_⟩
  · rw [Ty.resolved_fn]
    exact ⟨by simpa [Ty.resolved, Ty.allResolved, hd] using hrest, hvalue⟩
  · rw [applyPrimitive,
      den_apply_builtin S ρ hf.ty_eq (Builtin.den_uncurry S (d :: p :: rest) value hlen)]
    cases f.den S ρ (.fn d (.nest (p :: rest) value)) <;> rfl

/-- The function of two keys that a curried morphism is: the second key read through `t`. -/
def curryThrough {A B C D : Type} (t : PFn B C) (g : PFn (A × C × Unit) D) : PFn A (B → Option D) :=
  t.bind fun t => g.map fun g x => some fun k => (t k).bind fun y => g (x, y, ())

lemma curriedTail_typed {steps : List Expr} {through : Option Expr} {g : Expr} {v : Ty}
    (hsteps : TypedChain Γ steps p (.fn q v)) (h : curriedTail steps = some (s, through, g)) :
    ∃ m y, TypedChain Γ s p m ∧ TypedChain Γ through.toList q y ∧
      Typed Γ g (.fn (.tuple [m, y]) v) ∧
      denChain S ρ steps p (.fn q v) = PFn.seq (denChain S ρ s p m)
        (curryThrough (denChain S ρ through.toList q y) (g.den S ρ (.fn (.tuple [m, y]) v))) := by
  unfold curriedTail at h
  split at h
  · cases h
  rename_i last hlast
  have happ : steps = steps.dropLast ++ [last] := (List.dropLast_append_getLast? last hlast).symm
  split at h
  · rename_i g' hg
    cases h
    rw [happ] at hsteps
    obtain ⟨m, hs, hl⟩ := typedChain_append.mp hsteps
    have hl' := typedChain_one.mp hl
    obtain ⟨_, _, _, heq, hg', hden⟩ := hl'.of_asCurry S ρ hg
    cases heq
    refine ⟨m, q, hs, .nil, hg', ?_⟩
    conv_lhs => rw [happ]
    rw [denChain_append S ρ hs, denChain_one S ρ hl', hden]
    congr 1
    cases g.den S ρ (.fn (.tuple [m, q]) v) <;> simp [curryThrough, PFn.curry, PFn.id]
  · split at h
    · rename_i hcomp
      obtain ⟨pair, hpair, h⟩ := Option.bind_eq_some_iff.mp h
      obtain ⟨⟨t, c⟩, hz, h⟩ := Option.bind_eq_some_iff.mp h
      obtain ⟨tc, htc, h⟩ := Option.bind_eq_some_iff.mp h
      obtain ⟨g', hg, h⟩ := Option.bind_eq_some_iff.mp h
      cases h
      have happ' : steps.dropLast = steps.dropLast.dropLast ++ [pair] :=
        (List.dropLast_append_getLast? pair hpair).symm
      rw [happ, happ'] at hsteps
      obtain ⟨m', hfront, hl⟩ := typedChain_append.mp hsteps
      obtain ⟨m, hs, hp⟩ := typedChain_append.mp hfront
      have hp' := typedChain_one.mp hp
      have hl' := typedChain_one.mp hl
      obtain ⟨u, rfl⟩ := isBuiltin_iff.mp hcomp
      have hl'' := hl'
      cases hl' with | builtin hb _ => cases hb with | compose _ y _ =>
      obtain ⟨_, _, _, heq, ht, hc, hzden⟩ := hp'.of_asZip S ρ hz
      cases heq
      obtain ⟨_, _, heq, htc', htden⟩ := ht.of_asConst S ρ htc
      cases heq
      obtain ⟨_, _, _, heq, hg', hgden⟩ := hc.of_asCurry S ρ hg
      cases heq
      refine ⟨m, y, hs, typedChain_one.mpr htc', hg', ?_⟩
      conv_lhs => rw [happ, happ']
      rw [denChain_append S ρ hfront, denChain_append S ρ hs, denChain_one S ρ hp',
        denChain_one S ρ hl'', hzden, htden, hgden, den, Builtin.den_compose, PFn.seq_assoc]
      congr 1
      rw [Option.toList, denChain_one S ρ htc']
      rcases tc.den S ρ (.fn q y) with - | t
      · rfl
      rcases g.den S ρ (.fn (.tuple [m, y]) v) with - | k
      · rfl
      rfl
    · cases h

/-! ## The rule -/

/-- The steps before a lifted constant nest are defined at the first key wherever the nest has a
value at the others. -/
def ConstantNestDefined (e : Expr) : Prop := ∀ argument n u p rest value s last c m,
    e = .apply argument (.builtin (.uncurry n) u) (.fn (.tuple (p :: rest)) value) →
    argument.steps = s ++ [last] → last.asConst = some c →
    (Ty.tuple (p :: rest)).projected = false → last.ty = .fn m (.nest rest value) →
      PFn.Absorbs PFn.id
        ((c.den S ρ (.nest rest value)).map fun g (ks : (Ty.tuple (p :: rest)).Val W) =>
          unnest value rest g ks.2)
        PFn.id
        (PFn.seq (some fun (ks : (Ty.tuple (p :: rest)).Val W) => some ks.1) (denChain S ρ s p m))

/-- The constant case: the other keys read off the constant nest. -/
lemma typed_constantNest {c : Expr} (hc : Typed Γ c (.nest (q :: rest) value))
    (hres : (Ty.tuple (p :: q :: rest)).resolved = true) (hvalue : value.resolved = true) :
    Means S ρ Γ (.compose [if rest.length + 2 = 2 then keyProj (p :: q :: rest) 1
          else zipOf (keyProjs (p :: q :: rest) 1),
        flattened c (rest.length + 1) rest value] (.fn (.tuple (p :: q :: rest)) value))
      (.fn (.tuple (p :: q :: rest)) value)
      ((c.den S ρ (.nest (q :: rest) value)).map fun g ks => unnest value (q :: rest) g ks.2) := by
  cases rest with
  | nil =>
    have hk := typed_keyProj S ρ (Γ := Γ) (i := 1) (t := q) rfl hres
    have hc' : Means S ρ Γ (flattened c 1 [] value) (.fn q value) (c.den S ρ (.fn q value)) := by
      rw [flattened_one]
      exact ⟨hc, rfl⟩
    obtain ⟨hnew, hden⟩ := hk.seq S ρ hc'
    refine ⟨hnew, hden.trans ?_⟩
    change _ = (c.den S ρ (.fn q value)).map fun g (ks : (Ty.tuple [p, q]).Val W) =>
      unnest value [q] g ks.2
    cases c.den S ρ (.fn q value) with
    | none => rfl
    | some g =>
      refine congrArg some (funext fun ks => ?_)
      simp only [Vals.nth, Ty.read_self, unnest, Option.bind_some]
      cases g ks.2.1 <;> rfl
  | cons r rest =>
    obtain ⟨hkeys, hkden⟩ := typed_keyProjs S ρ (Γ := Γ) (i := 1) hres (by simp [Nat.add_comm])
      (fun ks => (ks.2 : Vals W (q :: r :: rest))) fun j t ht => ⟨by
        simpa [Nat.add_comm 1 j] using ht, fun ks => by rw [Nat.add_comm 1 j]; rfl⟩
    have hne : keyProjs (p :: q :: r :: rest) 1 ≠ [] := by
      intro h
      rw [h] at hkeys
      cases hkeys
    have hrest : (Ty.tuple (r :: rest)).resolved = true := by simp_all [Ty.resolved, Ty.allResolved]
    obtain ⟨hnew, hden⟩ := (typed_zipOf S ρ hne hkeys).seq S ρ (typed_flattened S ρ hc hrest hvalue)
    refine ⟨hnew, hden.trans ?_⟩
    rw [hkden]
    change _ = (c.den S ρ (.fn q (.nest (r :: rest) value))).map _
    cases c.den S ρ (.fn q (.nest (r :: rest) value)) <;> rfl

/-- The first two keys, each read through its chain. -/
def pairing (parts : List Ty) (s t : List Expr) : Expr :=
  zipPair (readThrough (.tuple parts) (keyProj parts 0) s)
    (readThrough (.tuple parts) (keyProj parts 1) t)

lemma typed_pairing {y : Ty} {t : List Expr} (hs : TypedChain Γ s p m) (ht : TypedChain Γ t q y)
    (hres : (Ty.tuple (p :: q :: rest)).resolved = true) :
    Means S ρ Γ (pairing (p :: q :: rest) s t) (.fn (.tuple (p :: q :: rest)) (.tuple [m, y]))
      ((denChain S ρ s p m).bind fun f => (denChain S ρ t q y).map fun g ks =>
        (f ks.1).bind fun x => (g ks.2.1).map fun y => (x, y, ())) := by
  obtain ⟨hf, hfden⟩ := typed_readThrough S ρ (i := 0) (t := p) rfl hres hs
  obtain ⟨hg, hgden⟩ := typed_readThrough S ρ (i := 1) (t := q) rfl hres ht
  obtain ⟨hz, hzden⟩ := typed_zipPair S ρ hf hg
  refine ⟨hz, ?_⟩
  rw [pairing, hzden, hfden, hgden]
  rcases denChain S ρ s p m with - | f
  · rfl
  rcases denChain S ρ t q y with - | g
  · rfl
  refine congrArg some (funext fun ks => ?_)
  simp only [Vals.nth, Ty.read_self, Option.bind_some]
  cases f ks.1 <;> cases g ks.2.1 <;> simp

/-- The curried case: the nest read at all its keys at once. -/
lemma typed_curriedNest {g : Expr} {y : Ty} {t : List Expr} (hs : TypedChain Γ s p m)
    (ht : TypedChain Γ t q y) (hg : Typed Γ g (.fn (.tuple [m, y]) (.nest rest value)))
    (hres : (Ty.tuple (p :: q :: rest)).resolved = true) (hvalue : value.resolved = true) :
    Means S ρ Γ (.compose [if rest.length + 2 = 2 then pairing (p :: q :: rest) s t
          else zipOf (pairing (p :: q :: rest) s t :: keyProjs (p :: q :: rest) 2),
        flattened g (rest.length + 1) rest value] (.fn (.tuple (p :: q :: rest)) value))
      (.fn (.tuple (p :: q :: rest)) value)
      ((PFn.seq (denChain S ρ s p m) (curryThrough (denChain S ρ t q y)
        (g.den S ρ (.fn (.tuple [m, y]) (.nest rest value))))).map
          fun f ks => (f ks.1).bind fun h =>
            (h ks.2.1).bind fun k => unnest value rest k ks.2.2) := by
  have hp := typed_pairing S ρ hs ht hres
  cases rest with
  | nil =>
    have hg' : Means S ρ Γ (flattened g 1 [] value) (.fn (.tuple [m, y]) value)
        (g.den S ρ (.fn (.tuple [m, y]) value)) := by
      rw [flattened_one]
      exact ⟨hg, rfl⟩
    obtain ⟨hnew, hden⟩ := hp.seq S ρ hg'
    refine ⟨hnew, hden.trans ?_⟩
    change _ = (PFn.seq _ (curryThrough _ (g.den S ρ (.fn (.tuple [m, y]) value)))).map
      fun f (ks : (Ty.tuple [p, q]).Val W) => (f ks.1).bind fun h => (h ks.2.1).bind some
    rcases denChain S ρ s p m with - | f
    · rfl
    rcases denChain S ρ t q y with - | g'
    · rfl
    rcases g.den S ρ (.fn (.tuple [m, y]) value) with - | k
    · rfl
    refine congrArg some (funext fun ks => ?_)
    cases hf : f ks.1 <;> cases hg : g' ks.2.1 <;> simp [hf, hg]
  | cons r rest =>
    obtain ⟨hkeys, hkden⟩ := typed_keyProjs S ρ (Γ := Γ) (i := 2) hres (by simp; omega)
      (fun ks => (ks.2.2 : Vals W (r :: rest))) fun j t ht => ⟨by
        simpa [Nat.add_comm 2 j] using ht, fun ks => by rw [Nat.add_comm 2 j]; rfl⟩
    have harms : TypedTuple Γ (pairing (p :: q :: r :: rest) s t :: keyProjs _ 2)
        ((.tuple [m, y] :: r :: rest).map (Ty.fn (.tuple (p :: q :: r :: rest)))) :=
      .cons hp.typed hkeys
    have hrest : (Ty.tuple (r :: rest)).resolved = true := by simp_all [Ty.resolved, Ty.allResolved]
    obtain ⟨hnew, hden⟩ := (typed_zipOf S ρ (List.cons_ne_nil _ _) harms).seq S ρ
      (typed_flattened S ρ hg hrest hvalue)
    refine ⟨hnew, hden.trans ?_⟩
    rw [zipDen, hp.den, hkden]
    rcases denChain S ρ s p m with - | f
    · rfl
    rcases denChain S ρ t q y with - | g'
    · rfl
    rcases g.den S ρ (.fn (.tuple [m, y]) (.nest (r :: rest) value)) with - | k
    · rfl
    refine congrArg some (funext fun ks => ?_)
    cases hf : f ks.1 <;> cases hg : g' ks.2.1 <;> simp [hf, hg]

lemma uncurryCurried_iff {e e' : Expr} (ht : Typed Γ e t) (h : uncurryCurried e = some e') :
    Typed Γ e' t ∧ (e'.den S ρ t = e.den S ρ t ↔ ConstantNestDefined S ρ e) := by
  unfold uncurryCurried at h
  split at h
  case h_2 => cases h
  rename_i argument n u domain value
  cases ht with | apply harg hf => cases hf with | builtin hb hu =>
  cases hb with | uncurry parts _ hlen =>
  simp only [Ty.peelRefinements_tuple] at h
  split at h
  case isFalse => cases h
  rename_i hn
  have hres := Ty.resolved_fn.mp (Ty.resolved_fn.mp hu).2
  obtain _ | ⟨p, _ | ⟨q, rest⟩⟩ := parts
  · cases hlen
  · cases Nat.le_of_succ_le_succ hlen
  obtain ⟨hsteps, hargden⟩ := harg.steps_typed S ρ (a := p) (b := .nest (q :: rest) value)
  have hden : (Expr.apply argument (.builtin (.uncurry (p :: q :: rest).length)
      (.fn (.nest (p :: q :: rest) value) (.fn (.tuple (p :: q :: rest)) value)))
      (.fn (.tuple (p :: q :: rest)) value)).den S ρ (.fn (.tuple (p :: q :: rest)) value) =
        readNest (denChain S ρ argument.steps p (.nest (q :: rest) value)) := by
    rw [den_apply_builtin S ρ harg.ty_eq
      (Builtin.den_uncurry S (p :: q :: rest) value (by simp)), hargden]
    change (argument.den S ρ (.fn p (.nest (q :: rest) value))).bind _ = _
    cases argument.den S ρ (.fn p (.nest (q :: rest) value)) <;> rfl
  rw [hden]
  split at h
  · rename_i c hc hproj
    change argument.steps.getLast?.bind asConst = some c at hc
    obtain ⟨last, hlast, hconst⟩ := Option.bind_eq_some_iff.mp hc
    have happ : argument.steps = argument.steps.dropLast ++ [last] :=
      (List.dropLast_append_getLast? last hlast).symm
    cases h
    rw [happ] at hsteps
    obtain ⟨m, hs, hl⟩ := typedChain_append.mp hsteps
    have hl' := typedChain_one.mp hl
    obtain ⟨_, _, heq, hc', hcden⟩ := hl'.of_asConst S ρ hconst
    cases heq
    obtain ⟨hnew, hnewden⟩ := typed_constantNest S ρ hc' hres.1 hres.2
    refine ⟨hnew, ?_⟩
    have hguard : readNest (denChain S ρ argument.steps p (.nest (q :: rest) value)) = PFn.guard
        (PFn.seq (some fun ks => some ks.1) (denChain S ρ argument.steps.dropLast p m))
        ((c.den S ρ (.nest (q :: rest) value)).map fun g ks =>
          unnest value (q :: rest) g ks.2) := by
      conv_lhs => rw [happ]
      rw [denChain_append S ρ hs, denChain_one S ρ hl', hcden, readNest_const]
    have hiff := PFn.seq_guard_iff (PFn.id : PFn ((Ty.tuple (p :: q :: rest)).Val W) _)
      (PFn.seq (some fun ks => some ks.1) (denChain S ρ argument.steps.dropLast p m))
      ((c.den S ρ (.nest (q :: rest) value)).map fun g ks => unnest value (q :: rest) g ks.2)
      PFn.id
    rw [PFn.id_seq, PFn.id_seq, PFn.seq_id, PFn.seq_id, ← hguard] at hiff
    refine (Eq.congr_left hnewden).trans (hiff.trans ⟨?_, ?_⟩)
    · rintro habs _ _ _ _ _ _ s' last' c' m' ⟨⟩ hsteps' hc'' - hm'
      obtain ⟨rfl, hl2⟩ := List.append_inj' (happ.symm.trans hsteps') rfl
      cases hl2
      cases hconst.symm.trans hc''
      cases hl'.ty_eq.symm.trans hm'
      exact habs
    · intro habs
      exact habs _ _ _ _ _ _ _ _ _ _ rfl happ hconst hproj hl'.ty_eq
  · rename_i hnot
    change ∀ c, argument.steps.getLast?.bind asConst = some c → _ = _ → False at hnot
    obtain ⟨⟨s, through, g⟩, htail, h⟩ := Option.bind_eq_some_iff.mp h
    obtain ⟨m, y, hs, ht, hg, htden⟩ := curriedTail_typed S ρ hsteps htail
    refine (and_congr_right fun _ => iff_true_right ?_).mpr ?_
    · rintro _ _ _ _ _ _ s' last' c' m' ⟨⟩ hsteps' hc' hproj' -
      exact absurd hproj' (hnot c' (by rw [hsteps']; simp [hc']))
    obtain ⟨hnew, hnewden⟩ := typed_curriedNest S ρ hs ht hg hres.1 hres.2
    have horig := congrArg (@readNest W (q :: rest) value p) htden
    rw [show readNest (denChain S ρ argument.steps p (.nest (q :: rest) value)) = _ from horig]
    dsimp only at h
    split at h
    · rename_i hplain
      obtain ⟨hn2, rfl, rfl⟩ := hplain
      cases hs
      cases ht
      obtain rfl : rest = [] := by simpa using hn2
      cases h
      change Typed Γ ((flattened g 1 [] value).withTy (.fn (.tuple [p, q]) value)) _ ∧
        ((flattened g 1 [] value).withTy (.fn (.tuple [p, q]) value)).den S ρ
          (.fn (.tuple [p, q]) value) = _
      have hg' : Typed Γ g (.fn (.tuple [p, q]) value) := hg
      rw [flattened_one, hg'.withTy_self]
      refine ⟨hg', ?_⟩
      change _ = (PFn.seq _ (curryThrough (denChain S ρ [] q q)
        (g.den S ρ (.fn (.tuple [p, q]) value)))).map
          fun f (ks : (Ty.tuple [p, q]).Val W) => (f ks.1).bind fun h => (h ks.2.1).bind some
      rw [denChain_nil, denChain_nil, PFn.id_seq]
      rcases g.den S ρ (.fn (.tuple [p, q]) value) with - | k
      · rfl
      refine congrArg some (funext fun ks => ?_)
      simp
    · cases h
      exact ⟨hnew, hnewden⟩

end Cambra.Ccl
