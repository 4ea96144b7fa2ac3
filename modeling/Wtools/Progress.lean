import Wtools.Decode
import Wtools.Library.Iteration

/-!
# Progress of the decoding loop

The condition of the loop in `val_foreach` bounds nothing, and some branches move the cursor by an
amount that is read from the data. Still an iteration that goes on has moved it forward, and one that
begins at the last byte or behind it reads outside of the buffer.
-/

namespace Wtools
open ByteMemory Iteration

section Faults

/-- A fault of a computation is one of these. -/
def Faults {α : Type} (P : Fault → Prop) (x : Except Fault α) : Prop := ∀ e, x = .error e → P e

variable {α β : Type} {P : Fault → Prop}

theorem Faults.ok (a : α) : Faults P (.ok a) := by
  intro e h
  cases h

theorem Faults.bind {x : Except Fault α} {f : α → Except Fault β} (hx : Faults P x)
    (hf : ∀ a, Faults P (f a)) : Faults P (x >>= f) := by
  intro e h
  cases x with
  | error e' =>
    cases h
    exact hx e rfl
  | ok a => exact hf a e h

theorem Faults.ite {c : Prop} [Decidable c] {x y : Except Fault α} (hx : Faults P x)
    (hy : Faults P y) : Faults P (if c then x else y) := by
  split
  · exact hx
  · exact hy

/-- A read at or behind the end of the buffer. -/
def PastEnd (z : Zone) (e : Fault) : Prop := ∃ i, z.size ≤ i ∧ e = .read i

variable {z : Zone}

theorem readByte_faults (hP : ∀ e, PastEnd z e → P e) (i : Nat) : Faults P (readByte z i) := by
  intro e h
  by_cases hi : i < z.size
  · rw [readByte_of_lt hi] at h
    cases h
  · rw [readByte, Zone.byte?_of_ge (Nat.le_of_not_lt hi)] at h
    cases h
    exact hP _ ⟨i, Nat.le_of_not_lt hi, rfl⟩

theorem read16_faults (hP : ∀ e, PastEnd z e → P e) (i : Nat) : Faults P (read16 z i) :=
  (readByte_faults hP i).bind fun _ => (readByte_faults hP (i + 1)).bind fun _ => .ok _

theorem read32_faults (hP : ∀ e, PastEnd z e → P e) (i : Nat) : Faults P (read32 z i) :=
  (readByte_faults hP i).bind fun _ => (readByte_faults hP (i + 1)).bind fun _ =>
    (readByte_faults hP (i + 2)).bind fun _ => (readByte_faults hP (i + 3)).bind fun _ => .ok _

theorem readFloat_faults (hP : ∀ e, PastEnd z e → P e) (i : Nat) : Faults P (readFloat z i) :=
  (readByte_faults hP i).bind fun _ => (readByte_faults hP (i + 1)).bind fun _ =>
    (readByte_faults hP (i + 2)).bind fun _ => (readByte_faults hP (i + 3)).bind fun _ => .ok _

theorem read64With_faults (hP : ∀ e, PastEnd z e → P e)
    (g : UInt8 → UInt8 → UInt8 → UInt8 → UInt8 → UInt8 → UInt8 → UInt8 → UInt64) (i : Nat) :
    Faults P (read64With g z i) :=
  (readByte_faults hP i).bind fun _ => (readByte_faults hP (i + 1)).bind fun _ =>
    (readByte_faults hP (i + 2)).bind fun _ => (readByte_faults hP (i + 3)).bind fun _ =>
    (readByte_faults hP (i + 4)).bind fun _ => (readByte_faults hP (i + 5)).bind fun _ =>
    (readByte_faults hP (i + 6)).bind fun _ => (readByte_faults hP (i + 7)).bind fun _ => .ok _

end Faults

section Loop
variable {σ : Type}

/-- `l_ptr`, `l_ctx.map_deep` and the data of the caller, between two iterations. -/
structure Cursor (σ : Type) where
  ptr : Nat
  deep : Int
  data : σ

/-- An iteration neither returns nor stops the loop, and leaves the cursor at `c'`. -/
def GoesOn (z : Zone) (cb : Callbacks σ) (l_base : Nat) (c c' : Cursor σ) : Prop :=
  ∃ l_ret, turn z cb c.ptr c.deep c.data = .ok (.go l_ret c'.ptr c'.deep c'.data) ∧
    l_ret &&& actionStopLoop = 0 ∧ beyond l_base c'.ptr

/-- The iteration at `c` is the last one, and the loop ends like this: it returns, it stops, it
reads at or behind the end, or a callback does not come back. -/
inductive Ends (z : Zone) (cb : Callbacks σ) (l_base : Nat) (c : Cursor σ) :
    Except Fault (Int × Nat × σ) → Prop
  | returned {s : σ} (h : turn z cb c.ptr c.deep c.data = .ok (.quit s)) :
    Ends z cb l_base c (.ok (bkvInvArg, c.ptr, s))
  | stopped {l_ret : UInt32} {off : Nat} {deep : Int} {s : σ}
    (h : turn z cb c.ptr c.deep c.data = .ok (.go l_ret off deep s))
    (hstop : l_ret &&& actionStopLoop ≠ 0 ∨ ¬beyond l_base off) :
    Ends z cb l_base c (.ok (bkvOk, off, s))
  | past {i : Nat} (h : turn z cb c.ptr c.deep c.data = .error (.read i)) (hi : z.size ≤ i) :
    Ends z cb l_base c (.error (.read i))
  | callback {e : Fault} (h : turn z cb c.ptr c.deep c.data = .error e) (ev : Event)
    (hcb : cb ev c.data = .error e) : Ends z cb l_base c (.error e)

variable {z : Zone} {cb : Callbacks σ} {l_base : Nat}

/-- An iteration faults only by a read at or behind the end, or in a callback. -/
theorem turn_faults (off : Nat) (deep : Int) (s : σ) :
    Faults (fun e => PastEnd z e ∨ ∃ ev, cb ev s = .error e) (turn z cb off deep s) := by
  have hread : ∀ e, PastEnd z e → PastEnd z e ∨ ∃ ev, cb ev s = .error e := fun _ => .inl
  have hcall : ∀ ev, Faults (fun e => PastEnd z e ∨ ∃ ev, cb ev s = .error e) (cb ev s) :=
    fun ev e h => .inr ⟨ev, h⟩
  unfold turn
  apply (readByte_faults hread off).bind
  intro b0
  apply (readByte_faults hread (off + 1)).bind
  intro b1
  dsimp only
  split
  · apply (hcall _).bind
    rintro ⟨r, s₁⟩
    apply Faults.ite
    · apply (read16_faults hread (off + 2)).bind
      intro n
      exact .ite (.ok _) (.ok _)
    · exact .ok _
  · exact (hcall _).bind fun _ => .ok _
  · exact (read16_faults hread _).bind fun _ => (hcall _).bind fun _ => .ok _
  · exact (hcall _).bind fun _ => .ok _
  · exact (read16_faults hread _).bind fun _ => (hcall _).bind fun _ => .ok _
  · exact (read32_faults hread _).bind fun _ => (hcall _).bind fun _ => .ok _
  · exact (read64With_faults hread _ _).bind fun _ => (hcall _).bind fun _ => .ok _
  · exact (read16_faults hread _).bind fun _ => (hcall _).bind fun _ => .ok _
  · exact (readFloat_faults hread _).bind fun _ => (hcall _).bind fun _ => .ok _
  · exact (read64With_faults hread _ _).bind fun _ => (hcall _).bind fun _ => .ok _
  · exact (readByte_faults hread _).bind fun _ => (hcall _).bind fun _ => .ok _
  · exact .ok _

theorem GoesOn.forward {c c' : Cursor σ} (h : GoesOn z cb l_base c c') : c.ptr < c'.ptr := by
  obtain ⟨l_ret, hturn, hstop, -⟩ := h
  exact (turn_forward hturn).2.resolve_right (not_not_intro hstop)

/-- An iteration that goes on has read both bytes of a header. -/
theorem GoesOn.inside {c c' : Cursor σ} (h : GoesOn z cb l_base c c') : c.ptr < z.size - 1 := by
  obtain ⟨l_ret, hturn, -, -⟩ := h
  obtain ⟨b0, -, hturn⟩ := bind_ok hturn
  obtain ⟨b1, h1, -⟩ := bind_ok hturn
  have hlt := readByte_ok h1
  omega

theorem GoesOn.loopAt {c c' : Cursor σ} (h : GoesOn z cb l_base c c') :
    loopAt z cb l_base c.ptr c.deep c.data = loopAt z cb l_base c'.ptr c'.deep c'.data := by
  obtain ⟨l_ret, hturn, hgo⟩ := h
  rw [loopAt_eq, hturn]
  exact if_pos hgo

theorem loopAt_of_iterates {n : Nat} {c c' : Cursor σ} (h : Iterates (GoesOn z cb l_base) n c c') :
    loopAt z cb l_base c.ptr c.deep c.data = loopAt z cb l_base c'.ptr c'.deep c'.data := by
  induction h with
  | refl c => rfl
  | step _ hs ih => rw [ih, hs.loopAt]

/-- An iteration that does not go on ends the loop. -/
theorem ends_of_last {c : Cursor σ} (h : ∀ c', ¬GoesOn z cb l_base c c') :
    Ends z cb l_base c (loopAt z cb l_base c.ptr c.deep c.data) := by
  rw [loopAt_eq]
  cases hturn : turn z cb c.ptr c.deep c.data with
  | error e =>
    rcases turn_faults c.ptr c.deep c.data e hturn with ⟨i, hi, rfl⟩ | ⟨ev, hcb⟩
    · exact .past hturn hi
    · exact .callback hturn ev hcb
  | ok t =>
    cases t with
    | quit s => exact .returned hturn
    | go l_ret off deep s =>
      rw [ok_bind]
      dsimp only
      have hnot : ¬(l_ret &&& actionStopLoop = 0 ∧ beyond l_base off) := by
        rintro ⟨hstop, hb⟩
        exact h ⟨off, deep, s⟩ ⟨l_ret, hturn, hstop, hb⟩
      rw [if_neg hnot]
      exact .stopped hturn (not_and_or.mp hnot)

/-- Every iteration that does not ask to stop moves the cursor forward. So no offset is visited
twice, whatever the bytes are and the callbacks answer, and among the first iterations, as many as
there are bytes, is one that ends the loop. -/
theorem val_foreach_progress (z : Zone) (v : BkvVal) (cb : Callbacks σ) (p_data : σ) :
    (∀ (c : Cursor σ) l_ret off deep s, turn z cb c.ptr c.deep c.data = .ok (.go l_ret off deep s) →
      l_ret &&& actionStopLoop = 0 → c.ptr + 1 ≤ off) ∧
    (∀ i j c c', Iterates (GoesOn z cb v.priv) i ⟨v.priv, 0, p_data⟩ c →
      Iterates (GoesOn z cb v.priv) j c c' → c.ptr + j ≤ c'.ptr) ∧
    ∃ k c, k + 1 ≤ max 1 (z.size - v.priv) ∧
      Iterates (GoesOn z cb v.priv) k ⟨v.priv, 0, p_data⟩ c ∧
      Ends z cb v.priv c (valForeachPtr z v cb p_data) := by
  have hmove : ∀ c c' : Cursor σ, GoesOn z cb v.priv c c' → c.ptr < c'.ptr :=
    fun _ _ => GoesOn.forward
  refine ⟨?_, ?_, ?_⟩
  · intro c l_ret off deep s hturn hstop
    exact (turn_forward hturn).2.resolve_right (not_not_intro hstop)
  · intro i j c c' _ hrun
    exact hrun.moves hmove
  · obtain ⟨k, c, hk, hrun, hlast⟩ :=
      Iterates.exists_last hmove (fun _ _ => GoesOn.inside) ⟨v.priv, 0, p_data⟩
    refine ⟨k, c, by dsimp only at hk; omega, hrun, ?_⟩
    have hloop := loopAt_of_iterates hrun
    rw [valForeachPtr_eq, hloop]
    exact ends_of_last hlast

/-- A map of length 0 that is left out ends the loop where it stands. -/
example : valForeachPtr ⟨fun i => [0x10, 1, 0, 0].getD i 0, 4⟩ bkvValInitValue
    (fun _ s => .ok (actionGotoEndMap, s)) () = .ok (bkvInvArg, 0, ()) := rfl

end Loop

end Wtools
