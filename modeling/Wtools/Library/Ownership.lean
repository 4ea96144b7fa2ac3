import Mathlib.Algebra.Order.Group.Multiset

/-!
# Ownership

Programs that take resources and give them back. A resource is in the store as often as it was
taken. A call is specified by what it owns before and after; whatever else is in the store is its
frame and stays there.
-/

namespace Wtools.Ownership

variable {ρ α β : Type}

/-- What was taken and not given back, and how many names were used. -/
structure Store (ρ : Type) where
  goods : Multiset ρ
  names : Nat

abbrev Proc (ρ : Type) := StateT (Store ρ) Option

/-- A resource under a new name, which is never 0. -/
def acquire (f : Nat → ρ) : Proc ρ Nat := fun s =>
  some (s.names + 1, ⟨f (s.names + 1) ::ₘ s.goods, s.names + 1⟩)

/-- A resource whose name is not ours to choose. -/
def receive (r : ρ) : Proc ρ Unit := fun s => some ((), { s with goods := r ::ₘ s.goods })

section
variable [DecidableEq ρ]

/-- Using what one does not have is an error. -/
def need (r : ρ) : Proc ρ Unit := fun s => if r ∈ s.goods then some ((), s) else none

/-- So is giving it back. -/
def release (r : ρ) : Proc ρ Unit := fun s =>
  if r ∈ s.goods then some ((), { s with goods := s.goods.erase r }) else none

/-- Giving it back where nobody checks. -/
def discard (r : ρ) : Proc ρ Unit := fun s => some ((), { s with goods := s.goods.erase r })

end

/-- A call that owns `pre` goes through, and leaves alone what it does not own. -/
def Owns (pre : Multiset ρ) (call : Proc ρ α) (post : α → Multiset ρ → Prop) : Prop :=
  ∀ s rest, s.goods = pre + rest →
    ∃ a s' own, call s = some (a, s') ∧ s'.goods = own + rest ∧ post a own

variable {pre : Multiset ρ} {call : Proc ρ α} {post post' : α → Multiset ρ → Prop}

namespace Owns

theorem pure {a : α} (h : post a pre) : Owns pre (pure a) post :=
  fun s _ hs => ⟨a, s, pre, rfl, hs, h⟩

theorem bind {f : α → Proc ρ β} {post' : β → Multiset ρ → Prop} (h : Owns pre call post)
    (hf : ∀ a own, post a own → Owns own (f a) post') : Owns pre (call >>= f) post' := by
  intro s rest hs
  obtain ⟨a, s₁, own, hrun, hs₁, hpost⟩ := h s rest hs
  obtain ⟨b, s', own', hrun', hs', hpost'⟩ := hf a own hpost s₁ rest hs₁
  refine ⟨b, s', own', ?_, hs', hpost'⟩
  change (call s).bind (fun p => f p.1 p.2) = _
  rw [hrun]
  exact hrun'

theorem mono (h : Owns pre call post) (hpost : ∀ a own, post a own → post' a own) :
    Owns pre call post' := by
  intro s rest hs
  obtain ⟨a, s', own, hrun, hs', ha⟩ := h s rest hs
  exact ⟨a, s', own, hrun, hs', hpost a own ha⟩

/-- The frame rule. -/
theorem frame (h : Owns pre call post) (frame : Multiset ρ) :
    Owns (pre + frame) call fun a own => ∃ own', own = own' + frame ∧ post a own' := by
  intro s rest hs
  obtain ⟨a, s', own, hrun, hs', ha⟩ := h s (frame + rest) (hs.trans (add_assoc ..))
  exact ⟨a, s', own + frame, hrun, hs'.trans (add_assoc ..).symm, own, rfl, ha⟩

/-- A call that needs nothing may be made with anything. -/
theorem beside (h : Owns 0 call post) (frame : Multiset ρ) :
    Owns frame call fun a own => ∃ own', own = own' + frame ∧ post a own' := by
  rw [← zero_add frame]
  refine (h.frame frame).mono fun a own hown => ?_
  rwa [zero_add]

end Owns

/-- A call that owns `pre` does not go through, whatever else there is. -/
def Fails (pre : Multiset ρ) (call : Proc ρ α) : Prop :=
  ∀ s rest, s.goods = pre + rest → call s = none

namespace Fails

theorem failure : Fails pre (failure : Proc ρ α) := fun _ _ _ => rfl

theorem bind (h : Fails pre call) (f : α → Proc ρ β) : Fails pre (call >>= f) := by
  intro s rest hs
  change (call s).bind (fun p => f p.1 p.2) = none
  rw [h s rest hs]
  rfl

theorem frame (h : Fails pre call) (frame : Multiset ρ) : Fails (pre + frame) call :=
  fun s rest hs => h s (frame + rest) (hs.trans (add_assoc ..))

end Fails

/-- What comes after a call that goes through does not. -/
theorem Owns.bind_fails {f : α → Proc ρ β} (h : Owns pre call post)
    (hf : ∀ a own, post a own → Fails own (f a)) : Fails pre (call >>= f) := by
  intro s rest hs
  obtain ⟨a, s₁, own, hrun, hs₁, hpost⟩ := h s rest hs
  change (call s).bind (fun p => f p.1 p.2) = none
  rw [hrun]
  exact hf a own hpost s₁ rest hs₁

theorem acquire_owns (f : Nat → ρ) : Owns 0 (acquire f) fun a own => a ≠ 0 ∧ own = {f a} :=
  fun s rest hs => ⟨s.names + 1, _, {f (s.names + 1)}, rfl,
    (congrArg _ (hs.trans (zero_add rest))).trans (Multiset.singleton_add ..).symm,
    Nat.succ_ne_zero _, rfl⟩

theorem receive_owns (r : ρ) : Owns 0 (receive r) fun _ own => own = {r} :=
  fun _ rest hs => ⟨(), _, {r}, rfl,
    (congrArg _ (hs.trans (zero_add rest))).trans (Multiset.singleton_add ..).symm, rfl⟩

section
variable [DecidableEq ρ]

theorem need_owns {r : ρ} (h : r ∈ pre) : Owns pre (need r) fun _ own => own = pre :=
  fun s _ hs => ⟨(), s, pre, if_pos (hs ▸ Multiset.mem_add.mpr (.inl h)), hs, rfl⟩

theorem erase_frame {s : Store ρ} {r : ρ} {rest : Multiset ρ} (hs : s.goods = (r ::ₘ pre) + rest) :
    s.goods.erase r = pre + rest := by
  rw [hs, Multiset.cons_add, Multiset.erase_cons_head]

theorem release_owns (r : ρ) (pre : Multiset ρ) :
    Owns (r ::ₘ pre) (release r) fun _ own => own = pre := by
  intro s rest hs
  have hmem : r ∈ s.goods := hs ▸ Multiset.mem_add.mpr (.inl (Multiset.mem_cons_self r pre))
  exact ⟨(), _, pre, if_pos hmem, erase_frame hs, rfl⟩

theorem discard_owns (r : ρ) (pre : Multiset ρ) :
    Owns (r ::ₘ pre) (discard r) fun _ own => own = pre :=
  fun _ _ hs => ⟨(), _, pre, rfl, erase_frame hs, rfl⟩

end

end Wtools.Ownership
