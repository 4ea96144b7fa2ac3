import Wtools.Layout
import Wtools.Val

/-!
# Decoding one record

One turn of the reading loop on each record the writer lays out, and the loop as a
function of the offset alone.
-/

namespace Wtools
open ByteMemory

theorem bind_ok {ε α β : Type} {x : Except ε α} {f : α → Except ε β} {b : β}
    (h : x >>= f = .ok b) : ∃ a, x = .ok a ∧ f a = .ok b := by
  cases x with
  | error e => cases h
  | ok a => exact ⟨a, rfl, h⟩

@[simp] theorem ok_bind {ε α β : Type} (a : α) (f : α → Except ε β) :
    (Except.ok a >>= f) = f a := rfl

@[simp] theorem error_bind {ε α β : Type} (e : ε) (f : α → Except ε β) :
    ((Except.error e : Except ε α) >>= f) = .error e := rfl

@[simp] theorem pure_ok {ε α : Type} (a : α) : (pure a : Except ε α) = .ok a := rfl

variable {σ : Type} {z : Zone} {cb : Callbacks σ}

theorem readByte_of_lt {i : Nat} (h : i < z.size) : readByte z i = .ok (z.mem i) := by
  rw [readByte, Zone.byte?_of_lt h]

theorem readByte_ok {i : Nat} {b : UInt8} (h : readByte z i = .ok b) : i < z.size := by
  by_cases hi : i < z.size
  · exact hi
  · simp [readByte, Zone.byte?_of_ge (Nat.le_of_not_lt hi)] at h

theorem turn_forward {off off' : Nat} {deep deep' : Int} {s s' : σ} {ret : UInt32}
    (h : turn z cb off deep s = .ok (.go ret off' deep' s')) :
    off < z.size ∧ (off < off' ∨ ret &&& actionStopLoop ≠ 0) := by
  obtain ⟨b0, h0, h⟩ := bind_ok h
  obtain ⟨b1, -, h⟩ := bind_ok h
  refine ⟨readByte_ok h0, ?_⟩
  dsimp only at h
  split at h
  · obtain ⟨⟨r, s₁⟩, -, h⟩ := bind_ok h
    dsimp only at h
    split at h
    · obtain ⟨n, -, h⟩ := bind_ok h
      split at h
      · cases h
      · rename_i hn
        cases h
        have hpos : 0 < n.toNat := Nat.pos_of_ne_zero fun hz => hn (UInt16.toNat_inj.mp hz)
        exact .inl (by omega)
    · cases h
      exact .inl (by simp only [hdrSize]; omega)
  · obtain ⟨⟨r, s₁⟩, -, h⟩ := bind_ok h
    cases h
    exact .inl (by simp only [hdrSize]; omega)
  · obtain ⟨n, -, h⟩ := bind_ok h
    obtain ⟨⟨r, s₁⟩, -, h⟩ := bind_ok h
    cases h
    exact .inl (by simp only [hdrSize]; omega)
  · obtain ⟨⟨r, s₁⟩, -, h⟩ := bind_ok h
    cases h
    exact .inl (by simp only [hdrSize]; omega)
  iterate 7
    obtain ⟨n, -, h⟩ := bind_ok h
    obtain ⟨⟨r, s₁⟩, -, h⟩ := bind_ok h
    cases h
    exact .inl (by simp only [hdrSize]; omega)
  · cases h
    exact .inr (by decide)

/-- Fuel above what is left of the zone makes no difference. -/
theorem loop_stable {base n fuel off : Nat} {deep : Int} {s : σ} (hn : z.size - off < n)
    (hf : n ≤ fuel) : loop z cb base fuel off deep s = loop z cb base n off deep s := by
  induction n generalizing fuel off deep s with
  | zero => omega
  | succ n ih =>
    obtain ⟨fuel, rfl⟩ : ∃ k, fuel = k + 1 := ⟨fuel - 1, by omega⟩
    rw [loop, loop]
    cases ht : turn z cb off deep s with
    | error x => rfl
    | ok t =>
      cases t with
      | quit s₁ => rfl
      | go ret off' deep' s₁ =>
        obtain ⟨hz, hgo⟩ := turn_forward ht
        simp only [bind, Except.bind]
        split
        · rename_i hc
          exact ih (by have := hgo.resolve_right (not_not_intro hc.1); omega) (by omega)
        · rfl

/-- The loop from `off` on, with fuel enough. -/
def loopAt (z : Zone) (cb : Callbacks σ) (base off : Nat) (deep : Int) (s : σ) :
    Except Fault (Int × Nat × σ) := loop z cb base (z.size - off + 1) off deep s

theorem loopAt_eq (base off : Nat) (deep : Int) (s : σ) : loopAt z cb base off deep s =
    turn z cb off deep s >>= fun t => match t with
      | .quit s => .ok (bkvInvArg, off, s)
      | .go ret off' deep' s' =>
        if ret &&& actionStopLoop = 0 ∧ beyond base off' then loopAt z cb base off' deep' s'
        else .ok (bkvOk, off', s') := by
  rw [loopAt, loop]
  cases ht : turn z cb off deep s with
  | error x => rfl
  | ok t =>
    cases t with
    | quit s₁ => rfl
    | go ret off' deep' s₁ =>
      obtain ⟨hz, hgo⟩ := turn_forward ht
      simp only [ok_bind, pure_ok]
      split
      · rename_i hc
        have := hgo.resolve_right (not_not_intro hc.1)
        exact loop_stable (by omega) (by omega)
      · rfl

/-- The loop never runs out of fuel. -/
theorem valForeachPtr_eq (v : BkvVal) (s : σ) :
    valForeachPtr z v cb s = loopAt z cb v.priv v.priv 0 s :=
  loop_stable (by omega) (by omega)

theorem ofCode_code (t : HeaderType) : HeaderType.ofCode t.code = some t := by
  cases t <;> decide

variable {off : Nat}

theorem read_header {t : HeaderType} {key : UInt16} (h : Holds z.mem off (setKey t key))
    (hz : off + 2 ≤ z.size) (hk : key ≤ 0xFFF) :
    ∃ b0 b1, readByte z off = .ok b0 ∧ readByte z (off + 1) = .ok b1 ∧
      HeaderType.ofCode (hdrNibble b0) = some t ∧ hdrKey b0 b1 = key := by
  simp only [setKey, holds_cons] at h
  refine ⟨_, _, readByte_of_lt (by omega), readByte_of_lt (by omega), ?_, ?_⟩
  · rw [h.1, hdrNibble_setKey hk, ofCode_code]
  · rw [h.1, h.2.1, hdrKey_setKey_of_le hk]

theorem read16_holds {v : UInt16} (h : Holds z.mem off (cpuToLe16 v)) (hz : off + 2 ≤ z.size) :
    read16 z off = .ok v := by
  simp only [cpuToLe16, holds_cons] at h
  rw [read16, readByte_of_lt (by omega), readByte_of_lt (by omega), h.1, h.2.1, ok_bind, ok_bind,
    le16ToCpu_cpuToLe16, pure_ok]

theorem read32_holds {v : UInt32} (h : Holds z.mem off (cpuToLe32 v)) (hz : off + 4 ≤ z.size) :
    read32 z off = .ok v := by
  simp only [cpuToLe32, holds_cons] at h
  obtain ⟨h0, h1, h2, h3, -⟩ := h
  rw [read32, readByte_of_lt (by omega), readByte_of_lt (by omega), readByte_of_lt (by omega),
    readByte_of_lt (by omega), h0, h1, h2, h3]
  simp only [ok_bind, pure_ok, le32ToCpu_cpuToLe32]

theorem readFloat_holds {v : UInt32} (h : Holds z.mem off (cpuToLef v)) (hz : off + 4 ≤ z.size) :
    readFloat z off = .ok v := by
  have hr := read32_holds h hz
  rw [floatTmp_eq] at hr
  rw [← hr, readFloat, read32]
  simp only [lefToCpu_eq]

theorem read64_holds {v : UInt64} (h : Holds z.mem off (cpuToLeU64 v)) (hz : off + 8 ≤ z.size) :
    read64With leU64ToCpu z off = .ok v := by
  simp only [cpuToLeU64, holds_cons] at h
  obtain ⟨h0, h1, h2, h3, h4, h5, h6, h7, -⟩ := h
  rw [read64With, readByte_of_lt (by omega), readByte_of_lt (by omega), readByte_of_lt (by omega),
    readByte_of_lt (by omega), readByte_of_lt (by omega), readByte_of_lt (by omega),
    readByte_of_lt (by omega), readByte_of_lt (by omega), h0, h1, h2, h3, h4, h5, h6, h7]
  simp only [ok_bind, pure_ok, leU64ToCpu_cpuToLeU64]

theorem readDouble_holds {v : UInt64} (h : Holds z.mem off (cpuToLeDouble v))
    (hz : off + 8 ≤ z.size) : read64With leDoubleToCpu z off = .ok (doubleStored v) := by
  rw [← read64_holds h hz, read64With, read64With]
  simp only [leDoubleToCpu_eq]

end Wtools
