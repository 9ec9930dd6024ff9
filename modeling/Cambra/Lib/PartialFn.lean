import Mathlib.Data.Option.Basic

/-!
# Partial functions that may be missing

`PFn A B` is what a term that should name a partial function gives: nothing, or a partial function
from `A` to `B`.  Composition, products and currying are defined over it, each missing where an
operand is and undefined where the operand it reads first is.

They satisfy the equations of a cartesian closed category as far as those discard nothing.  Where
an equation discards an operand it holds up to that operand's definedness, which `guard` keeps: so
`⟨f, g⟩ ≫ fst` is `f` guarded by `⟨f, g⟩` (`cons_seq_fst`).  `seq_guard_iff` says when a guard in
the middle of a chain may be dropped: exactly where it is defined wherever the rest of the chain is
(`Absorbs`).
-/

namespace Cambra

open Option

/-- A partial function, if there is one. -/
abbrev PFn (A B : Type) := Option (A → Option B)

namespace PFn

variable {A B C D E : Type}

/-- The identity. -/
def id : PFn A A := some some

/-- Composition, left to right. -/
def seq (f : PFn A B) (g : PFn B C) : PFn A C := f.bind fun f => g.map fun g v => (f v).bind g

/-- The function that is a value everywhere. -/
def const (o : Option B) : PFn A B := o.map fun b _ => some b

/-- The product of a function and a tuple of functions. -/
def cons (f : PFn A B) (g : PFn A C) : PFn A (B × C) :=
  f.bind fun f => g.map fun g v => (f v).bind fun x => (g v).map fun y => (x, y)

/-- The product of no functions. -/
def nil : PFn A Unit := some fun _ => some ()

/-- The product of two functions. -/
def pair (f : PFn A B) (g : PFn A C) : PFn A (B × C × Unit) := cons f (cons g nil)

/-- `f`, where `d` is defined too. -/
def guard (d : PFn A B) (f : PFn A C) : PFn A C :=
  d.bind fun d => f.map fun f v => (d v).bind fun _ => f v

/-- A function of a pair as a function to functions, defined everywhere. -/
def curry (f : PFn (A × B × Unit) C) : PFn A (B → Option C) :=
  f.map fun f x => some fun y => f (x, y, ())

/-- Application as a function of a pair. -/
def eval : PFn (B × (B → Option C) × Unit) C := some fun v => v.2.1 v.1

/-- The first component. -/
def fst : PFn (B × C) B := some fun v => some v.1

/-- The components after the first. -/
def snd : PFn (B × C) C := some fun v => some v.2

/-! ## Categories and products -/

@[simp] lemma id_seq (f : PFn A B) : seq id f = f := by cases f <;> simp [seq, id]

@[simp] lemma seq_id (f : PFn A B) : seq f id = f := by cases f <;> simp [seq, id]

lemma seq_assoc (f : PFn A B) (g : PFn B C) (h : PFn C D) : seq (seq f g) h = seq f (seq g h) := by
  rcases f with - | f <;> rcases g with - | g <;> rcases h with - | h <;>
    simp [seq, bind_assoc]

lemma seq_cons (l : PFn A B) (f : PFn B C) (g : PFn B D) :
    seq l (cons f g) = cons (seq l f) (seq l g) := by
  rcases l with - | l <;> rcases f with - | f <;> rcases g with - | g <;> simp [seq, cons]
  funext v
  cases l v <;> simp

/-- A nonempty product takes what stands before it into its arms. -/
lemma seq_cons_nil (l : PFn A B) (f : PFn B C) : seq l (cons f nil) = cons (seq l f) nil := by
  rcases l with - | l <;> rcases f with - | f <;> simp [seq, cons, nil]
  funext v
  cases l v <;> simp

lemma cons_seq_fst (f : PFn A B) (g : PFn A C) : seq (cons f g) fst = guard (cons f g) f := by
  rcases f with - | f <;> rcases g with - | g <;> simp [seq, cons, fst, guard]
  funext v
  cases f v <;> cases g v <;> simp

/-- Pairing the components of a pair gives the pair back. -/
lemma pair_fst_snd (f : PFn A (B × C × Unit)) : pair (seq f fst) (seq f (seq snd fst)) = f := by
  rcases f with - | f
  · rfl
  simp only [pair, seq, fst, snd, cons, nil, map_some, bind_some]
  congr 1
  funext v
  cases f v <;> simp

/-! ## Constants and application -/

lemma seq_const (f : PFn A B) (o : Option C) : seq f (const o) = guard f (const o) := by
  rcases f with - | f <;> rcases o with - | o <;> simp [seq, const, guard]

/-- `⟨f, const(g)⟩ ≫ apply` is `f ≫ g`. -/
lemma pair_const_eval (f : PFn A B) (g : PFn B C) : seq (pair f (const g)) eval = seq f g := by
  rcases f with - | f <;> rcases g with - | g <;> simp [seq, pair, cons, nil, const, eval]
  funext v
  cases f v <;> simp

/-- `⟨g, curry(h)⟩ ≫ apply` is `⟨id, g⟩ ≫ h`. -/
lemma pair_curry_eval (g : PFn A B) (h : PFn (A × B × Unit) C) :
    seq (pair g (curry h)) eval = seq (pair id g) h := by
  rcases g with - | g <;> rcases h with - | h <;>
    simp [seq, pair, cons, nil, curry, eval, id]
  funext v
  cases g v <;> simp

/-- `⟨q, p ≫ curry(f)⟩ ≫ apply` is `f` at what `p` and `q` give, both defined everywhere. -/
lemma universal (p : A → B) (q : A → C) (f : PFn (B × C × Unit) D) :
    seq (pair (some fun v => some (q v)) (seq (some fun v => some (p v)) (curry f))) eval =
      f.map fun f v => f (p v, q v, ()) := by
  rcases f with - | f <;> simp [seq, pair, cons, nil, curry, eval]

/-- `⟨x, h ≫ const⟩ ≫ apply` is `h`, where `x` is defined. -/
lemma pair_constantValued_eval (x : PFn A B) (h : PFn A C) :
    seq (pair x (seq h (some fun c => some fun _ => some c))) eval =
      guard (pair x (seq h (some fun c => some fun (_ : B) => some c))) h := by
  rcases x with - | x <;> rcases h with - | h <;>
    simp [seq, pair, cons, nil, eval, guard]
  funext v
  cases x v <;> cases h v <;> simp

/-- `⟨const(f), k⟩` looked up is `k` looked up in `f`. -/
lemma pair_const_lookup (o : Option (B → Option C)) (k : PFn A B) :
    seq (pair (const o) k) (some fun v => some (v.1 v.2.1)) =
      seq k (o.bind fun f => some fun x => some (f x)) := by
  rcases o with - | f <;> rcases k with - | k <;> simp [seq, pair, cons, nil, const]
  funext v
  cases k v <;> simp

/-- `⟨id, const(g)⟩` composed is composition with `g`. -/
lemma pair_id_const_compose (o : Option (C → Option D)) :
    seq (pair id (const o)) (some fun v => some fun x => (v.1 x).bind v.2.1) =
      seq id (o.bind fun g => some fun (f : B → Option C) => some fun x => (f x).bind g) := by
  rcases o with - | g <;> simp [seq, pair, cons, nil, const, id]

/-- Applying a composite of functions, one after the other. -/
lemma pair_compose_eval (x : PFn A B) (f : PFn A (B → Option C)) (g : PFn A (C → Option D)) :
    seq (pair x (seq (pair f g) (some fun v => some fun y => (v.1 y).bind v.2.1))) eval =
      seq (pair (seq (pair x f) eval) g) eval := by
  rcases x with - | x <;> rcases f with - | f <;> rcases g with - | g <;>
    simp [seq, pair, cons, nil, eval]
  funext v
  cases x v <;> cases f v <;> cases g v <;> simp
  rename_i a b c
  cases b a <;> simp

/-- Applying a product of functions, each on its own. -/
lemma pair_zip_eval (x : PFn A B) (f : PFn A (B → Option C)) (g : PFn A (B → Option D)) :
    seq (pair x (seq (pair f g)
        (some fun v => some fun y => (v.1 y).bind fun c => (v.2.1 y).map fun d => (c, d, ()))))
      eval = pair (seq (pair x f) eval) (seq (pair x g) eval) := by
  rcases x with - | x <;> rcases f with - | f <;> rcases g with - | g <;>
    simp [seq, pair, cons, nil, eval]
  funext v
  cases x v <;> cases f v <;> cases g v <;> simp
  rename_i a b c
  cases b a <;> cases c a <;> simp

/-- `curry(⟨.1, .0⟩ ≫ apply ≫ g)` composes with `g`. -/
lemma curry_apply (g : PFn C D) :
    curry (seq (seq (pair (some fun v => some v.2.1) (some fun v => some v.1)) eval) g) =
      g.map fun g (x : B → Option C) => some fun y => (x y).bind g := by
  rcases g with - | g <;> simp [curry, seq, pair, cons, nil, eval]

/-- **`curry(⟨.1, .0 ≫ f⟩ ≫ apply ≫ g)` is `f` composed with composition with `g` exactly where `f`
is defined everywhere, if `g` is there at all.** -/
theorem curry_seq_apply_iff (f : PFn A (B → Option C)) (g : PFn C D) :
    seq f (g.map fun g (x : B → Option C) => some fun y => (x y).bind g) =
        curry (seq (seq (pair (some fun v => some v.2.1) (seq (some fun v => some v.1) f)) eval) g)
      ↔ (g.isSome → ∀ f', f = some f' → ∀ x, (f' x).isSome) := by
  rcases g with - | g
  · rcases f with - | f <;> simp [curry, seq]
  rcases f with - | f
  · simp [curry, seq, pair, cons]
  simp only [curry, seq, pair, cons, nil, eval, map_some, bind_some,
    Option.some.injEq, isSome_some, forall_const, forall_eq']
  constructor
  · intro h x
    have hx := congrFun h x
    obtain hf | ⟨k, hf⟩ := eq_none_or_eq_some (f x)
    · simp [hf] at hx
    · simp [hf]
  · intro h
    funext x
    obtain ⟨k, hk⟩ := isSome_iff_exists.mp (h x)
    simp [hk]

/-! ## Keys -/

/-- The keys a function is defined at, each as itself. -/
def keys (f : PFn A B) : PFn A A := f.map fun f k => if (f k).isSome then some k else none

/-- The keys of a chain whose first step gives each key back. -/
lemma keys_seq {s : PFn A A} {t : PFn A B} (hs : ∀ f, s = some f → ∀ k v, f k = some v → k = v) :
    keys (seq s t) = seq s (guard t id) := by
  rcases s with - | s
  · rfl
  rcases t with - | t
  · rfl
  simp only [keys, seq, guard, id, map_some, bind_some, Option.some.injEq]
  funext k
  obtain hk | ⟨v, hk⟩ := eq_none_or_eq_some (s k)
  · simp [hk]
  · obtain rfl := hs s rfl k v hk
    obtain ht | ⟨w, ht⟩ := eq_none_or_eq_some (t k) <;> simp [hk, ht]

/-! ## Dropping a guard -/

/-- `d` is defined wherever the chain `p ≫ k ≫ q` is. -/
def Absorbs (p : PFn A B) (k : PFn B C) (q : PFn C D) (d : PFn B E) : Prop :=
  ∀ p' k' q', p = some p' → k = some k' → q = some q' →
    ∃ d', d = some d' ∧ ∀ x y, p' x = some y → ((k' y).bind q').isSome → (d' y).isSome

/-- **A guard in the middle of a chain may be dropped exactly where the rest of the chain absorbs
it.** -/
theorem seq_guard_iff (p : PFn A B) (d : PFn B E) (k : PFn B C) (q : PFn C D) :
    seq p (seq k q) = seq p (seq (guard d k) q) ↔ Absorbs p k q d := by
  rcases p with - | p
  · simp [seq, Absorbs]
  rcases k with - | k
  · rcases d with - | d <;> simp [seq, guard, Absorbs]
  rcases q with - | q
  · rcases d with - | d <;> simp [seq, guard, Absorbs]
  rcases d with - | d
  · simp [seq, guard, Absorbs]
  simp only [seq, guard, map_some, bind_some, Option.some.injEq]
  constructor
  · rintro h _ _ _ ⟨⟩ ⟨⟩ ⟨⟩
    refine ⟨d, rfl, fun x y hp hk => ?_⟩
    have hx := congrFun h x
    rw [hp] at hx
    rcases hd : d y with - | e
    · simp only [bind_some, hd, bind_none] at hx
      rw [hx] at hk
      cases hk
    · rfl
  · intro h
    funext x
    rcases hp : p x with - | y
    · rfl
    rcases hd : d y with - | e
    · have hk : (k y).bind q = none := by
        by_contra hne
        obtain ⟨_, ⟨⟩, habs⟩ := h p k q rfl rfl rfl
        simpa [hd] using habs x y hp (isSome_iff_ne_none.mpr hne)
      simp [hk, hd]
    · simp [hd]

end PFn

end Cambra
