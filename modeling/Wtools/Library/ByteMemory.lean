import Mathlib.Data.List.Basic

/-!
# Byte memories

A memory is a total map from addresses to bytes. `put` stores a run of bytes,
`slice` reads one back, and `Holds` says that a run lies at an address. A `Pattern`
is a run some of whose bytes are left open. A `Zone` is the part of a memory that may
be read; a read outside it fails.
-/

namespace ByteMemory

/-- A property of all bytes can be checked byte by byte. -/
instance decidableForallByte {p : UInt8 → Prop} [DecidablePred p] : Decidable (∀ c, p c) :=
  decidable_of_iff (∀ n : Fin 256, p (UInt8.ofNat n))
    ⟨fun h c => by simpa using h ⟨c.toNat, c.toNat_lt⟩, fun h n => h _⟩

abbrev Mem := Nat → UInt8

/-- Store the run `bs` at `off`, leaving every other address as it is. -/
def put (m : Mem) (off : Nat) (bs : List UInt8) : Mem := fun i =>
  if off ≤ i then bs[i - off]?.getD (m i) else m i

/-- The run of `n` bytes at `off`. -/
def slice (m : Mem) (off : Nat) : Nat → List UInt8
  | 0 => []
  | n + 1 => m off :: slice m (off + 1) n

def Holds (m : Mem) (off : Nat) (bs : List UInt8) : Prop := slice m off bs.length = bs

/-- Two memories that agree on the addresses from `lo` up to `hi`. -/
def AgreeOn (m m' : Mem) (lo hi : Nat) : Prop := ∀ i, lo ≤ i → i < hi → m i = m' i

variable {m m' : Mem} {off lo hi i : Nat} {bs cs : List UInt8}

@[simp] theorem slice_zero : slice m off 0 = [] := rfl

@[simp] theorem slice_length (n : Nat) : (slice m off n).length = n := by
  induction n generalizing off with
  | zero => rfl
  | succ n ih => simp [slice, ih]

theorem slice_add (n k : Nat) : slice m off (n + k) = slice m off n ++ slice m (off + n) k := by
  induction n generalizing off with
  | zero => simp
  | succ n ih =>
    rw [Nat.add_right_comm]
    simp only [slice, List.cons_append, ih]
    rw [Nat.add_right_comm off 1 n, Nat.add_assoc off n 1]

theorem slice_getElem? (n : Nat) : (slice m off n)[i]? = if i < n then some (m (off + i)) else none := by
  induction n generalizing off i with
  | zero => simp
  | succ n ih =>
    cases i with
    | zero => simp [slice]
    | succ i => simp [slice, ih, Nat.add_assoc, Nat.add_comm 1]

theorem slice_congr {n : Nat} (h : AgreeOn m m' off (off + n)) :
    slice m off n = slice m' off n := by
  apply List.ext_getElem?
  intro i
  simp only [slice_getElem?]
  split
  · rw [h (off + i) (by omega) (by omega)]
  · rfl

@[simp] theorem holds_nil : Holds m off [] := rfl

theorem holds_cons {b : UInt8} : Holds m off (b :: bs) ↔ m off = b ∧ Holds m (off + 1) bs := by
  simp [Holds, slice]

theorem holds_append : Holds m off (bs ++ cs) ↔ Holds m off bs ∧ Holds m (off + bs.length) cs := by
  simp only [Holds, List.length_append, slice_add]
  constructor
  · intro h
    exact List.append_inj h (by simp)
  · rintro ⟨h₁, h₂⟩
    rw [h₁, h₂]

theorem Holds.eq_slice {n : Nat} (h : Holds m off bs) (hn : bs.length = n) :
    slice m off n = bs := by
  rw [← hn]
  exact h

theorem Holds.congr (h : Holds m off bs) (ha : AgreeOn m m' off (off + bs.length)) :
    Holds m' off bs := by
  rw [Holds, ← slice_congr ha]
  exact h

theorem put_of_lt (h : i < off) : put m off bs i = m i := by
  simp [put, Nat.not_le.mpr h]

theorem put_of_ge (h : off + bs.length ≤ i) : put m off bs i = m i := by
  have hn : bs[i - off]? = none := List.getElem?_eq_none (by omega)
  simp [put, hn]

theorem put_inside (h : i < bs.length) : put m off bs (off + i) = bs[i] := by
  simp [put, h]

theorem put_agree_below (h : hi ≤ off) : AgreeOn m (put m off bs) lo hi :=
  fun _ _ hlt => (put_of_lt (by omega)).symm

theorem put_agree_above (h : off + bs.length ≤ lo) : AgreeOn m (put m off bs) lo hi :=
  fun _ hle _ => (put_of_ge (by omega)).symm

theorem AgreeOn.refl : AgreeOn m m lo hi := fun _ _ _ => rfl

theorem AgreeOn.trans {m'' : Mem} (h : AgreeOn m m' lo hi) (h' : AgreeOn m' m'' lo hi) :
    AgreeOn m m'' lo hi := fun i hl hh => (h i hl hh).trans (h' i hl hh)

theorem AgreeOn.mono {lo' hi' : Nat} (h : AgreeOn m m' lo hi) (hl : lo ≤ lo') (hh : hi' ≤ hi) :
    AgreeOn m m' lo' hi' := fun i h₁ h₂ => h i (by omega) (by omega)

theorem holds_put : Holds (put m off bs) off bs := by
  rw [Holds]
  apply List.ext_getElem?
  intro i
  rw [slice_getElem?]
  split
  · rename_i h
    rw [put_inside h, List.getElem?_eq_getElem h]
  · rename_i h
    rw [List.getElem?_eq_none (by omega)]

theorem put_put : put (put m off bs) (off + bs.length) cs = put m off (bs ++ cs) := by
  funext i
  by_cases h₁ : i < off
  · rw [put_of_lt (by omega), put_of_lt h₁, put_of_lt h₁]
  by_cases h₂ : i < off + bs.length
  · obtain ⟨k, rfl⟩ : ∃ k, i = off + k := ⟨i - off, by omega⟩
    rw [put_of_lt h₂, put_inside (by omega), put_inside (by simp; omega),
      List.getElem_append_left]
  by_cases h₃ : i < off + bs.length + cs.length
  · obtain ⟨k, rfl⟩ : ∃ k, i = off + bs.length + k := ⟨i - (off + bs.length), by omega⟩
    have hk : k < cs.length := by omega
    rw [put_inside hk, Nat.add_assoc, put_inside (by simp; omega),
      List.getElem_append_right (by omega)]
    simp
  · rw [put_of_ge (by omega), put_of_ge (by omega), put_of_ge (by simp; omega)]

section Overlay

/-- The memory `m` with the bytes of `m'` at the addresses in `as`. -/
def overlay (m : Mem) (as : List Nat) (m' : Mem) : Mem := fun i => if i ∈ as then m' i else m i

variable {as : List Nat}

@[simp] theorem overlay_nil : overlay m [] m' = m := by
  funext i
  simp [overlay]

theorem overlay_of_notMem (h : i ∉ as) : overlay m as m' i = m i := if_neg h

theorem overlay_of_mem (h : i ∈ as) : overlay m as m' i = m' i := if_pos h

/-- A store into both memories is one more run taken from the second. -/
theorem put_overlay : put (overlay m as m') off bs =
    overlay m (as ++ List.range' off bs.length) (put m' off bs) := by
  funext i
  by_cases hi : i ∈ List.range' off bs.length
  · rw [overlay_of_mem (List.mem_append_right _ hi)]
    obtain ⟨hle, hlt⟩ := List.mem_range'_1.mp hi
    obtain ⟨k, rfl⟩ : ∃ k, i = off + k := ⟨i - off, by omega⟩
    rw [put_inside (by omega), put_inside (by omega)]
  · have hout : i < off ∨ off + bs.length ≤ i := by
      rw [List.mem_range'_1] at hi
      omega
    have hkeep : ∀ m : Mem, put m off bs i = m i := by
      intro m
      rcases hout with h | h
      · exact put_of_lt h
      · exact put_of_ge h
    rw [hkeep]
    by_cases ha : i ∈ as
    · rw [overlay_of_mem ha, overlay_of_mem (List.mem_append_left _ ha), hkeep]
    · rw [overlay_of_notMem ha, overlay_of_notMem (by simp [ha, hi])]

end Overlay

section Pattern

/-- A run of bytes; the places holding `none` are not specified. -/
abbrev Pattern := List (Option UInt8)

def known (bs : List UInt8) : Pattern := bs.map some

def blank (n : Nat) : Pattern := List.replicate n none

@[simp] theorem known_length (bs : List UInt8) : (known bs).length = bs.length := List.length_map ..

@[simp] theorem blank_length (n : Nat) : (blank n).length = n := List.length_replicate

@[simp] theorem known_nil : known [] = [] := rfl

@[simp] theorem known_append (bs cs : List UInt8) : known (bs ++ cs) = known bs ++ known cs :=
  List.map_append

def Fits (m : Mem) (off : Nat) : Pattern → Prop
  | [] => True
  | none :: p => Fits m (off + 1) p
  | some b :: p => m off = b ∧ Fits m (off + 1) p

variable {p q : Pattern}

@[simp] theorem fits_nil : Fits m off [] := trivial

theorem fits_append : Fits m off (p ++ q) ↔ Fits m off p ∧ Fits m (off + p.length) q := by
  induction p generalizing off with
  | nil => simp
  | cons b p ih =>
    cases b <;> simp [Fits, ih, Nat.add_assoc, Nat.add_comm 1, and_assoc]

@[simp] theorem fits_known : Fits m off (known bs) ↔ Holds m off bs := by
  induction bs generalizing off with
  | nil => simp
  | cons b bs ih =>
    rw [holds_cons, ← ih]
    rfl

@[simp] theorem fits_blank (n : Nat) : Fits m off (blank n) := by
  induction n generalizing off with
  | zero => trivial
  | succ n ih => exact ih

theorem Fits.congr (h : Fits m off p) (ha : AgreeOn m m' off (off + p.length)) : Fits m' off p := by
  induction p generalizing off with
  | nil => trivial
  | cons b p ih =>
    have ha' : AgreeOn m m' (off + 1) (off + 1 + p.length) :=
      ha.mono (by omega) (by simp only [List.length_cons]; omega)
    cases b with
    | none => exact ih h ha'
    | some b => exact ⟨(ha off (by omega) (by simp)) ▸ h.1, ih h.2 ha'⟩

theorem Fits.put_disjoint (h : Fits m off p) {o : Nat}
    (hd : off + p.length ≤ o ∨ o + cs.length ≤ off) : Fits (put m o cs) off p := by
  apply h.congr
  rcases hd with hd | hd
  · exact put_agree_below hd
  · exact put_agree_above hd

theorem Fits.copy {o : Nat} (h : Fits m o p) (hs : slice m' off p.length = slice m o p.length) :
    Fits m' off p := by
  induction p generalizing off o with
  | nil => trivial
  | cons b p ih =>
    rw [List.length_cons, slice, slice, List.cons.injEq] at hs
    cases b with
    | none => exact ih h hs.2
    | some b => exact ⟨hs.1.trans h.1, ih h.2 hs.2⟩

theorem fits_put : Fits (put m off bs) off (known bs) := fits_known.mpr holds_put

end Pattern

/-- An array seen as a total map from its index, which may leave the array. -/
abbrev Cells (α : Type*) := Int → α

def Cells.set {α : Type*} (c : Cells α) (i : Int) (a : α) : Cells α :=
  fun j => if j = i then a else c j

@[simp] theorem Cells.set_self {α : Type*} (c : Cells α) (j : Int) (a : α) : c.set j a j = a :=
  if_pos rfl

theorem Cells.set_of_ne {α : Type*} (c : Cells α) {j k : Int} (a : α) (h : k ≠ j) :
    c.set j a k = c k := if_neg h

/-- The bytes below `size` of a memory, those a reader may look at. -/
structure Zone where
  mem : Mem
  size : Nat

namespace Zone

def byte? (z : Zone) (i : Nat) : Option UInt8 := if i < z.size then some (z.mem i) else none

def slice? (z : Zone) (off n : Nat) : Option (List UInt8) :=
  if off + n ≤ z.size then some (slice z.mem off n) else none

@[simp] theorem byte?_of_lt {z : Zone} (h : i < z.size) : z.byte? i = some (z.mem i) := if_pos h

@[simp] theorem byte?_of_ge {z : Zone} (h : z.size ≤ i) : z.byte? i = none :=
  if_neg (Nat.not_lt.mpr h)

theorem slice?_of_holds {z : Zone} {n : Nat} (h : Holds z.mem off bs) (hn : bs.length = n)
    (hz : off + n ≤ z.size) : z.slice? off n = some bs := by
  rw [slice?, if_pos hz, h.eq_slice hn]

end Zone

end ByteMemory
