import Mathlib.Data.List.Basic

/-!
# Ordered forests

A forest is a sequence of leaves and of labelled nodes with a forest of their own.
Its tokens are its reading from left to right, each node giving an opening and a
closing token. `walk` is the depth-first traversal by a stateful visitor that may
leave a node out or end the traversal.
-/

universe u v w

inductive Forest (κ : Type u) (ν : Type v) where
  | nil
  | leaf (val : ν) (rest : Forest κ ν)
  | node (label : κ) (body rest : Forest κ ν)
  deriving DecidableEq, Repr

namespace Forest

inductive Token (κ : Type u) (ν : Type v) where
  | opening (label : κ)
  | closing (label : κ)
  | leaf (val : ν)
  deriving DecidableEq, Repr

variable {κ : Type u} {ν : Type v}

def append : Forest κ ν → Forest κ ν → Forest κ ν
  | nil, g => g
  | leaf a rest, g => leaf a (append rest g)
  | node k body rest, g => node k body (append rest g)

instance : Append (Forest κ ν) := ⟨append⟩

@[simp] theorem nil_append (g : Forest κ ν) : nil ++ g = g := rfl

@[simp] theorem leaf_append (a : ν) (f g : Forest κ ν) : leaf a f ++ g = leaf a (f ++ g) := rfl

@[simp] theorem node_append (k : κ) (b f g : Forest κ ν) :
    node k b f ++ g = node k b (f ++ g) := rfl

@[simp] theorem append_nil (f : Forest κ ν) : f ++ nil = f := by
  induction f with
  | nil => rfl
  | leaf a rest ih => rw [leaf_append, ih]
  | node k body rest _ ih => rw [node_append, ih]

theorem append_assoc (f g h : Forest κ ν) : f ++ g ++ h = f ++ (g ++ h) := by
  induction f with
  | nil => rfl
  | leaf a rest ih => simp only [leaf_append, ih]
  | node k body rest _ ih => simp only [node_append, ih]

def tokens : Forest κ ν → List (Token κ ν)
  | nil => []
  | leaf a rest => .leaf a :: tokens rest
  | node k body rest => .opening k :: (tokens body ++ .closing k :: tokens rest)

@[simp] theorem tokens_append (f g : Forest κ ν) : (f ++ g).tokens = f.tokens ++ g.tokens := by
  induction f with
  | nil => rfl
  | leaf a rest ih => simp [tokens, ih]
  | node k body rest _ ih => simp [tokens, ih]

section Spelling
variable {τ : Type*}

/-- A spelling of the tokens that tells the three sorts apart and keeps the labels of openings and
the leaves. The label of a closing may be lost, because the opening has it. -/
structure Token.Readable (q : Token κ ν → τ) : Prop where
  opening : ∀ k k', q (.opening k) = q (.opening k') → k = k'
  leaf : ∀ a a', q (.leaf a) = q (.leaf a') → a = a'
  opening_ne_leaf : ∀ k a, q (.opening k) ≠ q (.leaf a)
  opening_ne_closing : ∀ k k', q (.opening k) ≠ q (.closing k')
  leaf_ne_closing : ∀ a k, q (.leaf a) ≠ q (.closing k)

variable {q : Token κ ν → τ}

/-- What may follow a forest inside a longer reading: nothing, or the close of the node around it. -/
def Follows (q : Token κ ν → τ) (ts : List τ) : Prop := ∀ t ∈ ts.head?, ∃ k, t = q (.closing k)

theorem follows_nil : Follows q [] := by simp [Follows]

theorem follows_closing (k : κ) (ts : List τ) : Follows q (q (.closing k) :: ts) := by
  intro t ht
  exact ⟨k, (Option.some.inj ht).symm⟩

theorem Token.Readable.opening_stands (hq : Token.Readable q) {k : κ} {ts : List τ} :
    ¬Follows q (q (.opening k) :: ts) := by
  intro h
  obtain ⟨k', hk⟩ := h _ rfl
  exact hq.opening_ne_closing k k' hk

theorem Token.Readable.leaf_stands (hq : Token.Readable q) {a : ν} {ts : List τ} :
    ¬Follows q (q (.leaf a) :: ts) := by
  intro h
  obtain ⟨k, hk⟩ := h _ rfl
  exact hq.leaf_ne_closing a k hk

/-- Unique readability: the tokens of a forest determine it, whatever follows. -/
theorem spelling_append_inj (hq : Token.Readable q) {f g : Forest κ ν} {xs ys : List τ}
    (hx : Follows q xs) (hy : Follows q ys) (h : f.tokens.map q ++ xs = g.tokens.map q ++ ys) :
    f = g ∧ xs = ys := by
  induction f generalizing g xs ys with
  | nil =>
    cases g with
    | nil => exact ⟨rfl, h⟩
    | leaf a rest =>
      have hxs : xs = q (.leaf a) :: (rest.tokens.map q ++ ys) := h
      exact absurd (hxs ▸ hx) hq.leaf_stands
    | node k body rest =>
      have hxs :
          xs = q (.opening k) :: ((body.tokens ++ .closing k :: rest.tokens).map q ++ ys) := h
      exact absurd (hxs ▸ hx) hq.opening_stands
  | leaf a rest ih =>
    cases g with
    | nil =>
      have hys : q (.leaf a) :: (rest.tokens.map q ++ xs) = ys := h
      exact absurd (hys ▸ hy) hq.leaf_stands
    | leaf b rest' =>
      simp only [tokens, List.map_cons, List.cons_append, List.cons.injEq] at h
      obtain ⟨rfl, hxs⟩ := ih hx hy h.2
      exact ⟨by rw [hq.leaf a b h.1], hxs⟩
    | node k body rest' =>
      simp only [tokens, List.map_cons, List.cons_append, List.cons.injEq] at h
      exact absurd h.1.symm (hq.opening_ne_leaf k a)
  | node k body rest ihb ihr =>
    cases g with
    | nil =>
      have hys :
          q (.opening k) :: ((body.tokens ++ .closing k :: rest.tokens).map q ++ xs) = ys := h
      exact absurd (hys ▸ hy) hq.opening_stands
    | leaf b rest' =>
      simp only [tokens, List.map_cons, List.cons_append, List.cons.injEq] at h
      exact absurd h.1 (hq.opening_ne_leaf k b)
    | node k' body' rest' =>
      simp only [tokens, List.map_cons, List.map_append, List.cons_append, List.cons.injEq,
        List.append_assoc] at h
      obtain ⟨rfl, hrest⟩ := ihb (follows_closing _ _) (follows_closing _ _) h.2
      rw [List.cons.injEq] at hrest
      obtain ⟨rfl, hxs⟩ := ihr hx hy hrest.2
      exact ⟨by rw [hq.opening k k' h.1], hxs⟩

theorem spelling_injective (hq : Token.Readable q) {f g : Forest κ ν}
    (h : f.tokens.map q = g.tokens.map q) : f = g :=
  (spelling_append_inj hq follows_nil follows_nil (congrArg (· ++ []) h)).1

end Spelling

section Walk
variable {ε σ φ : Type*}

/-- What a visitor asks of the traversal after one visit. -/
structure Ask where
  skip : Bool
  stop : Bool
  deriving DecidableEq, Repr

/-- The outcome of a traversal: whether the visitor stopped it, and its last state. -/
abbrev Outcome (φ σ : Type*) := Except φ (Bool × σ)

/-- Go on with `k` unless the traversal has failed or was stopped. -/
def Outcome.next (r : Outcome φ σ) (k : σ → Outcome φ σ) : Outcome φ σ :=
  match r with
  | .error x => .error x
  | .ok (true, s) => .ok (true, s)
  | .ok (false, s) => k s

@[simp] theorem Outcome.next_error (x : φ) (k : σ → Outcome φ σ) :
    Outcome.next (.error x) k = .error x := rfl

@[simp] theorem Outcome.next_stopped (s : σ) (k : σ → Outcome φ σ) :
    Outcome.next (.ok (true, s)) k = .ok (true, s) := rfl

@[simp] theorem Outcome.next_going (s : σ) (k : σ → Outcome φ σ) :
    Outcome.next (.ok (false, s)) k = k s := rfl

@[simp] theorem Outcome.next_done (r : Outcome φ σ) : r.next (fun s => .ok (false, s)) = r := by
  rcases r with x | ⟨_ | _, s⟩ <;> rfl

theorem Outcome.next_assoc (r : Outcome φ σ) (k l : σ → Outcome φ σ) :
    (r.next k).next l = r.next fun s => (k s).next l := by
  rcases r with x | ⟨_ | _, s⟩ <;> rfl

/-- One visit seen as a traversal; a request to skip is ignored. -/
def visited (r : Except φ (Ask × σ)) : Outcome φ σ := r.map fun p => (p.1.stop, p.2)

@[simp] theorem visited_error (x : φ) : visited (.error x : Except φ (Ask × σ)) = .error x := rfl

@[simp] theorem visited_ok (a : Ask) (s : σ) :
    visited (.ok (a, s) : Except φ (Ask × σ)) = .ok (a.stop, s) := rfl

/-- Enter a node after its opening visit `r`, or leave it out and go on. -/
def enter (r : Except φ (Ask × σ)) (inside after : σ → Outcome φ σ) : Outcome φ σ :=
  match r with
  | .error x => .error x
  | .ok (a, s) =>
    if a.stop then .ok (true, s)
    else if a.skip then after s
    else inside s

theorem enter_next (r : Except φ (Ask × σ)) (inside after k : σ → Outcome φ σ) :
    (enter r inside after).next k =
      enter r (fun s => (inside s).next k) (fun s => (after s).next k) := by
  rcases r with x | ⟨⟨_ | _, _ | _⟩, s⟩ <;> rfl

theorem enter_kept {r : Except φ (Ask × σ)} (h : ∀ a s, r = .ok (a, s) → a.skip = false)
    (inside after : σ → Outcome φ σ) : enter r inside after = (visited r).next inside := by
  rcases r with x | ⟨⟨_ | _, _ | _⟩, s⟩
  · rfl
  · rfl
  · rfl
  · cases h _ _ rfl
  · cases h _ _ rfl

/-- Traversal of a forest whose nodes carry the visits of their two ends. -/
def walk (visit : ε → σ → Except φ (Ask × σ)) : Forest (ε × ε) ε → σ → Outcome φ σ
  | nil, s => .ok (false, s)
  | leaf e rest, s => (visited (visit e s)).next (walk visit rest)
  | node e body rest, s =>
    enter (visit e.1 s)
      (fun s₁ => (walk visit body s₁).next fun s₂ => (visited (visit e.2 s₂)).next (walk visit rest))
      (walk visit rest)

variable {visit : ε → σ → Except φ (Ask × σ)}

@[simp] theorem walk_nil : (nil : Forest (ε × ε) ε).walk visit = fun s => .ok (false, s) := rfl

theorem walk_append (f g : Forest (ε × ε) ε) (s : σ) :
    (f ++ g).walk visit s = (f.walk visit s).next (g.walk visit) := by
  induction f generalizing s with
  | nil => rfl
  | leaf e rest ih =>
    simp only [leaf_append, walk, Outcome.next_assoc]
    exact congrArg _ (funext ih)
  | node e body rest _ ih =>
    simp only [node_append, walk, enter_next, Outcome.next_assoc]
    rw [funext ih]

/-- The visits of a traversal that nothing cuts short. -/
def visits : Forest (ε × ε) ε → List ε
  | nil => []
  | leaf e rest => e :: visits rest
  | node e body rest => e.1 :: (visits body ++ e.2 :: visits rest)

/-- A visitor that asks for nothing in a forest sees all visits in order. -/
theorem walk_quiet {g : σ → ε → σ} {f : Forest (ε × ε) ε}
    (hv : ∀ e ∈ f.visits, ∀ s, visit e s = .ok (⟨false, false⟩, g s e)) (s : σ) :
    f.walk visit s = .ok (false, f.visits.foldl g s) := by
  induction f generalizing s with
  | nil => rfl
  | leaf e rest ih =>
    rw [visits, List.forall_mem_cons] at hv
    simp [walk, visits, hv.1, ih hv.2]
  | node e body rest ihb ih =>
    simp only [visits, List.forall_mem_cons, List.forall_mem_append] at hv
    obtain ⟨h₁, hb, h₂, hr⟩ := hv
    simp [walk, enter, visits, h₁, h₂, ihb hb, ih hr]

/-- Visits that ask for nothing, one after the other. -/
def visitAll (visit : ε → σ → Except φ (Ask × σ)) (es : List ε) (s : σ) : Except φ σ :=
  es.foldlM (fun s e => (visit e s).map Prod.snd) s

theorem visitAll_cons {e : ε} {es : List ε} {k : σ → Outcome φ σ} {s : σ}
    (hv : ∀ a s', visit e s = .ok (a, s') → a = ⟨false, false⟩)
    (hk : ∀ s, k s = (visitAll visit es s).map fun s => (false, s)) :
    (visited (visit e s)).next k = (visitAll visit (e :: es) s).map fun s => (false, s) := by
  unfold visitAll
  rw [List.foldlM_cons]
  cases he : visit e s with
  | error x => rfl
  | ok p =>
    have ha := hv p.1 p.2 he
    rw [visited_ok, ha, Outcome.next_going, hk]
    rfl

theorem visitAll_append (es₁ es₂ : List ε) {k : σ → Outcome φ σ} {s : σ}
    (hk : ∀ s, k s = (visitAll visit es₂ s).map fun s => (false, s)) :
    Outcome.next ((visitAll visit es₁ s).map fun s => (false, s)) k =
      (visitAll visit (es₁ ++ es₂) s).map fun s => (false, s) := by
  unfold visitAll
  rw [List.foldlM_append]
  cases h : es₁.foldlM (fun s e => (visit e s).map Prod.snd) s with
  | error x => rfl
  | ok s' => exact hk s'

/-- A visitor that asks for nothing, but may fail, makes the visits one by one. -/
theorem walk_visitAll {f : Forest (ε × ε) ε}
    (hv : ∀ e s a s', visit e s = .ok (a, s') → a = ⟨false, false⟩) (s : σ) :
    f.walk visit s = (visitAll visit f.visits s).map fun s => (false, s) := by
  induction f generalizing s with
  | nil => rfl
  | leaf e rest ih =>
    rw [walk, visits]
    exact visitAll_cons (hv e s) ih
  | node e body rest ihb ih =>
    have hkept : ∀ a s', visit e.1 s = .ok (a, s') → a.skip = false := by
      intro a s' h
      rw [hv e.1 s a s' h]
    rw [walk, visits, enter_kept hkept]
    refine visitAll_cons (hv e.1 s) fun s₁ => ?_
    rw [ihb]
    exact visitAll_append _ _ fun s₂ => visitAll_cons (hv e.2 s₂) ih

end Walk

end Forest
