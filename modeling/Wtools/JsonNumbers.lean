import Wtools.JsonStore
import Mathlib.Algebra.Order.Field.Rat
import Mathlib.Tactic.Linarith
import Mathlib.Data.Nat.GCD.Basic
import Mathlib.Tactic.Positivity
import Mathlib.Tactic.Ring

/-!
# The literals of numbers

`get_number` with all its locals. Its `double` operations are read as arithmetic of rational
numbers, the conversion to `float` at the end is a parameter. The length of the literal is cut to an
`int` before the loop, so of a very long literal only a part is read.
-/

namespace Wtools

/-- The turns of the loop: `l_offset` runs up to `(int)numberLen`. -/
def charsRead (numberLen : Nat) : Nat := ((numberLen : Int).bmod (2 ^ 32)).toNat

/-- The locals `l_u64`, `l_double`, `l_divisor` and `l_floating`; `l_double` is not read before the
point sets it. -/
structure NumberLoop where
  u64 : UInt64
  double : ℚ
  divisor : ℚ
  floating : Bool

/-- One turn of the loop. The divisor is multiplied by ten times itself. -/
def numberTurn (l_offset : Nat) (c : UInt8) (s : NumberLoop) : NumberLoop :=
  if c = 0x2E then { s with double := s.u64.toNat, floating := true }
  else if s.floating then
    { s with
      double := s.double + c.toNat / s.divisor
      divisor := s.divisor * (s.divisor * 10) }
  else { s with u64 := accumulate l_offset s.u64 c }

def numberLoop : Nat → List UInt8 → NumberLoop → NumberLoop
  | _, [], s => s
  | l_offset, c :: cs, s => numberLoop (l_offset + 1) cs (numberTurn l_offset c s)

/-- The locals after the loop. -/
def numberLocals (numberVal : List UInt8) : NumberLoop :=
  numberLoop 0 (numberVal.take (charsRead numberVal.length)) ⟨0, 0, 10, false⟩

/-- `get_number` -/
def getNumberLiteral (toFloat : ℚ → UInt32) (numberVal : List UInt8) : Decimal :=
  let s := numberLocals numberVal
  if s.floating then
    if charsRead numberVal.length < 8 then .float (toFloat s.double) else .double
  else if s.u64 < 0x10000 then .u16 s.u64.toUInt16
  else if s.u64 < 0x100000000 then .u32 s.u64.toUInt32
  else .u64 s.u64

/-- The number `get_number` has computed before it converts it to its type. -/
def numberComputed (numberVal : List UInt8) : ℚ :=
  let s := numberLocals numberVal
  if s.floating then s.double else s.u64.toNat

theorem charsRead_of_lt {n : Nat} (h : n < 2 ^ 31) : charsRead n = n := by
  have hint : (n : Int).bmod (2 ^ 32) = n := by
    apply Int.bmod_eq_of_le
    · simp
    · simp
      omega
  unfold charsRead
  rw [hint, Int.toNat_natCast]

theorem charsRead_lt (n : Nat) : charsRead n < 2 ^ 31 := by
  have hlt : (n : Int).bmod (2 ^ 32) < 2 ^ 31 := Int.bmod_lt (by decide)
  unfold charsRead
  omega

theorem charsRead_le (n : Nat) : charsRead n ≤ n := by
  by_cases hn : n < 2 ^ 31
  · exact Nat.le_of_eq (charsRead_of_lt hn)
  · have hlt := charsRead_lt n
    omega

section Loop
variable {i : Nat} {s : NumberLoop} {cs ds : List UInt8}

theorem numberLoop_append :
    numberLoop i (cs ++ ds) s = numberLoop (i + cs.length) ds (numberLoop i cs s) := by
  induction cs generalizing i s with
  | nil => rfl
  | cons c cs ih =>
    rw [List.cons_append, numberLoop, ih, numberLoop, List.length_cons]
    congr 1
    omega

theorem numberLoop_plain (hs : s.floating = false) (hcs : 0x2E ∉ cs) :
    numberLoop i cs s = { s with u64 := integerPart i s.u64 cs } := by
  induction cs generalizing i s with
  | nil => rfl
  | cons c cs ih =>
    rw [List.mem_cons, not_or] at hcs
    have hturn : numberTurn i c s = { s with u64 := accumulate i s.u64 c } := by
      rw [numberTurn, if_neg (Ne.symm hcs.1), hs, if_neg (by decide)]
    have hloop := ih (i := i + 1) (s := { s with u64 := accumulate i s.u64 c }) hs hcs.2
    rw [numberLoop, hturn, hloop, integerPart, if_neg (Ne.symm hcs.1)]

theorem numberLoop_floating (hs : s.floating = true) : (numberLoop i cs s).floating = true := by
  induction cs generalizing i s with
  | nil => exact hs
  | cons c cs ih =>
    rw [numberLoop]
    apply ih
    rw [numberTurn]
    split
    · rfl
    · exact hs

theorem numberTurn_point :
    numberTurn i 0x2E s = { s with double := s.u64.toNat, floating := true } :=
  if_pos rfl

/-- Whether a point was read. -/
theorem numberLoop_point (hs : s.floating = false) :
    (numberLoop i cs s).floating = decide (0x2E ∈ cs) := by
  by_cases hcs : 0x2E ∈ cs
  · obtain ⟨as, bs, rfl⟩ := List.append_of_mem hcs
    rw [numberLoop_append, numberLoop, numberTurn_point, numberLoop_floating rfl,
      decide_eq_true hcs]
  · rw [numberLoop_plain hs hcs, decide_eq_false hcs]
    exact hs

end Loop

/-- `get_number` is the function of the parser callbacks on the characters that are read. -/
theorem getNumberLiteral_eq (toFloat : ℚ → UInt32) (numberVal : List UInt8) :
    getNumberLiteral toFloat numberVal =
      getNumberJson (fun text => toFloat (numberLoop 0 text ⟨0, 0, 10, false⟩).double)
        (numberVal.take (charsRead numberVal.length)) := by
  have hlen :
      (numberVal.take (charsRead numberVal.length)).length = charsRead numberVal.length := by
    rw [List.length_take, Nat.min_eq_left (charsRead_le _)]
  rw [getNumberLiteral, getNumberJson, numberLocals, hlen]
  dsimp only
  rw [numberLoop_point rfl]
  by_cases hcs : 0x2E ∈ numberVal.take (charsRead numberVal.length)
  · rw [decide_eq_true hcs, if_pos rfl, if_pos hcs]
  · rw [decide_eq_false hcs, if_neg (by decide), if_neg hcs, numberLoop_plain rfl hcs]

section Decimal

theorem foldl_decimal (text : List UInt8) (a : Nat) :
    text.foldl (fun n c => n * 10 + (c.toNat - 0x30)) a =
      a * 10 ^ text.length + decimalValue text := by
  induction text generalizing a with
  | nil => simp [decimalValue]
  | cons c cs ih =>
    rw [decimalValue, List.foldl_cons, List.foldl_cons, ih, ih (0 * 10 + (c.toNat - 0x30)),
      List.length_cons, Nat.pow_succ']
    ring

theorem decimalValue_append (xs ys : List UInt8) :
    decimalValue (xs ++ ys) = decimalValue xs * 10 ^ ys.length + decimalValue ys := by
  rw [decimalValue, List.foldl_append, foldl_decimal]
  rfl

theorem decimalValue_lt {text : List UInt8} (ht : ∀ c ∈ text, isdigit c) :
    decimalValue text < 10 ^ text.length := by
  induction text with
  | nil => exact Nat.one_pos
  | cons c cs ih =>
    rw [List.forall_mem_cons] at ht
    have hc : c.toNat - 0x30 ≤ 9 := by
      have hd := ht.1
      simp only [isdigit, Bool.and_eq_true, decide_eq_true_eq, UInt8.le_iff_toNat_le] at hd
      have h9 := hd.2
      simp at h9
      omega
    have hrest := ih ht.2
    have hval : decimalValue (c :: cs) = (c.toNat - 0x30) * 10 ^ cs.length + decimalValue cs := by
      rw [decimalValue, List.foldl_cons, foldl_decimal, Nat.zero_mul, Nat.zero_add]
    have hmul : (c.toNat - 0x30) * 10 ^ cs.length ≤ 9 * 10 ^ cs.length :=
      Nat.mul_le_mul_right _ hc
    rw [hval, List.length_cons, Nat.pow_succ']
    omega

/-- The value of the front of a string of digits is at most a tenth of its value. -/
theorem decimalValue_take {text : List UInt8} {n : Nat} (hn : n < text.length) :
    decimalValue (text.take n) * 10 ≤ decimalValue text := by
  have hsplit := decimalValue_append (text.take n) (text.drop n)
  rw [List.take_append_drop, List.length_drop] at hsplit
  have hpow : 10 ≤ 10 ^ (text.length - n) := Nat.le_self_pow (by omega) 10
  have hmul : decimalValue (text.take n) * 10 ≤
      decimalValue (text.take n) * 10 ^ (text.length - n) := Nat.mul_le_mul_left _ hpow
  omega

theorem point_not_digits {text : List UInt8} (ht : ∀ c ∈ text, isdigit c) : 0x2E ∉ text :=
  fun h => (digit_step _ (ht _ h)).1 rfl

/-- The accumulator behind a minus sign starts at -3. -/
theorem integerPart_minus {text : List UInt8} (ht : ∀ c ∈ text, isdigit c) :
    integerPart 0 0 (0x2D :: text) =
      .ofNat ((2 ^ 64 - 3) * 10 ^ text.length + decimalValue text) := by
  have hacc : accumulate 0 0 0x2D = .ofNat (2 ^ 64 - 3) := rfl
  rw [integerPart, if_neg (by decide), hacc, integerPart_eq ht (by simp), foldl_decimal]

theorem integerPart_digits {text : List UInt8} (ht : ∀ c ∈ text, isdigit c) :
    integerPart 0 0 text = .ofNat (decimalValue text) :=
  integerPart_eq (i := 0) (a := 0) ht fun _ => rfl

/-- Zeros behind a minus sign give 0 once there are 64 of them. -/
theorem minus_zeros (k : Nat) : (2 ^ 64 - 3) * 10 ^ k % 2 ^ 64 = 0 ↔ 64 ≤ k := by
  have hpow : (10 : Nat) ^ k = 2 ^ k * 5 ^ k := by rw [← Nat.mul_pow]
  have hcop : Nat.Coprime (2 ^ 64) (2 ^ 64 - 3) := by decide
  have hcop5 : Nat.Coprime (2 ^ 64) (5 ^ k) := Nat.Coprime.pow _ _ (by decide)
  rw [← Nat.dvd_iff_mod_eq_zero, hcop.dvd_mul_left, hpow, hcop5.dvd_mul_right]
  exact Nat.pow_dvd_pow_iff_le_right (by decide)

end Decimal

section Integers

def integerLiteral (minus : Bool) (digits : List UInt8) : List UInt8 :=
  if minus then 0x2D :: digits else digits

def literalValue (minus : Bool) (digits : List UInt8) : Int :=
  if minus then -(decimalValue digits : Int) else decimalValue digits

/-- The width of the narrowest of the three types that holds a number. -/
def narrowest (n : Nat) : Nat := if n < 2 ^ 16 then 16 else if n < 2 ^ 32 then 32 else 64

/-- The width of the integer type that was chosen and the value in it. -/
def Decimal.integer? : Decimal → Option (Nat × Nat)
  | .u16 v => some (16, v.toNat)
  | .u32 v => some (32, v.toNat)
  | .u64 v => some (64, v.toNat)
  | .float _ | .double => none

/-- A literal is classified as an integer with its own value in the narrowest type, and not at all
when no type holds it. -/
structure ExactOrRefused (r : Decimal) (value : Int) : Prop where
  exact : ∀ width n, r.integer? = some (width, n) → (n : Int) = value ∧ width = narrowest n
  refused : value < 0 ∨ 2 ^ 64 ≤ value → r.integer? = none

theorem exactOrRefused_iff {r : Decimal} {n : Nat} (hr : r.integer? = some (narrowest n, n))
    (hn : n < 2 ^ 64) (value : Int) : ExactOrRefused r value ↔ (n : Int) = value := by
  constructor
  · intro h
    exact (h.exact _ _ hr).1
  · rintro rfl
    refine ⟨?_, ?_⟩
    · intro width m hm
      rw [hr] at hm
      cases hm
      exact ⟨rfl, rfl⟩
    · intro hout
      omega

/-- Without a point the accumulator is handed out in the narrowest type that holds it. -/
theorem getNumberLiteral_plain (toFloat : ℚ → UInt32) {numberVal : List UInt8}
    (hplain : 0x2E ∉ numberVal.take (charsRead numberVal.length)) :
    (getNumberLiteral toFloat numberVal).integer? =
      some (narrowest (integerPart 0 0 (numberVal.take (charsRead numberVal.length))).toNat,
        (integerPart 0 0 (numberVal.take (charsRead numberVal.length))).toNat) := by
  rw [getNumberLiteral_eq, getNumberJson, if_neg hplain]
  generalize integerPart 0 0 (numberVal.take (charsRead numberVal.length)) = u
  have h16 : u < 0x10000 ↔ u.toNat < 2 ^ 16 := UInt64.lt_iff_toNat_lt
  have h32 : u < 0x100000000 ↔ u.toNat < 2 ^ 32 := UInt64.lt_iff_toNat_lt
  dsimp only
  by_cases hu : u < 0x10000
  · have hlt := h16.mp hu
    rw [if_pos hu, narrowest, if_pos hlt, Decimal.integer?, UInt64.toNat_toUInt16,
      Nat.mod_eq_of_lt hlt]
  · rw [if_neg hu, narrowest, if_neg (mt h16.mpr hu)]
    by_cases hu' : u < 0x100000000
    · have hlt := h32.mp hu'
      rw [if_pos hu', if_pos hlt, Decimal.integer?, UInt64.toNat_toUInt32, Nat.mod_eq_of_lt hlt]
    · rw [if_neg hu', if_neg (mt h32.mpr hu'), Decimal.integer?]

theorem point_not_integer (minus : Bool) {digits : List UInt8} (hd : ∀ c ∈ digits, isdigit c)
    (n : Nat) : 0x2E ∉ (integerLiteral minus digits).take n := by
  intro h
  have hmem := List.mem_of_mem_take h
  cases minus with
  | false => exact point_not_digits hd hmem
  | true =>
    rcases List.mem_cons.mp hmem with h | h
    · cases h
    · exact point_not_digits hd h

/-- The value of the digits that are read is the value of all, modulo 2^64. -/
theorem digits_exact_iff {digits : List UInt8} (hd : ∀ c ∈ digits, isdigit c) {n : Nat}
    (hn : n ≤ digits.length) :
    (integerPart 0 0 (digits.take n)).toNat = decimalValue digits ↔
      decimalValue digits < 2 ^ 64 ∧ (n = digits.length ∨ decimalValue digits = 0) := by
  rw [integerPart_digits fun c hc => hd c (List.mem_of_mem_take hc), UInt64.toNat_ofNat']
  rcases Nat.eq_or_lt_of_le hn with rfl | hlt
  · rw [List.take_length]
    omega
  · have hten := decimalValue_take hlt
    omega

/-- Behind a minus sign the accumulator is 0 when nothing is read, or 64 zeros at least. -/
theorem minus_exact_iff {digits : List UInt8} (hd : ∀ c ∈ digits, isdigit c) {n : Nat}
    (hn : n ≤ digits.length + 1) (hzero : decimalValue digits = 0) :
    (integerPart 0 0 ((0x2D :: digits).take n)).toNat = 0 ↔ n = 0 ∨ 65 ≤ n := by
  cases n with
  | zero => simp [integerPart]
  | succ n =>
    have hlen : (digits.take n).length = n := by
      rw [List.length_take]
      omega
    have hval : decimalValue (digits.take n) = 0 := by
      rcases Nat.eq_or_lt_of_le (show n ≤ digits.length by omega) with rfl | hlt
      · rw [List.take_length, hzero]
      · have hten := decimalValue_take hlt
        omega
    rw [List.take_succ_cons, integerPart_minus fun c hc => hd c (List.mem_of_mem_take hc),
      UInt64.toNat_ofNat', hval, hlen, Nat.add_zero, minus_zeros]
    omega

end Integers

/-- An integer literal is stored exactly or refused if and only if it has no minus sign, is below
2^64 and, unless it is 0, is read to its end; or it is a minus sign and zeros, of which none or at
least 64 are read. -/
theorem integer_literal_iff (toFloat : ℚ → UInt32) (minus : Bool) (digits : List UInt8)
    (hd : ∀ c ∈ digits, isdigit c) :
    ExactOrRefused (getNumberLiteral toFloat (integerLiteral minus digits))
        (literalValue minus digits) ↔
      if minus then
        decimalValue digits = 0 ∧
          (charsRead (digits.length + 1) = 0 ∨ 65 ≤ charsRead (digits.length + 1))
      else
        decimalValue digits < 2 ^ 64 ∧ (digits.length < 2 ^ 31 ∨ decimalValue digits = 0) := by
  have hplain := getNumberLiteral_plain toFloat
    (point_not_integer minus hd (charsRead (integerLiteral minus digits).length))
  rw [exactOrRefused_iff hplain (UInt64.toNat_lt _)]
  cases minus with
  | false =>
    have hall : charsRead digits.length = digits.length ↔ digits.length < 2 ^ 31 := by
      constructor
      · intro heq
        have hlt := charsRead_lt digits.length
        omega
      · exact charsRead_of_lt
    have hexact := digits_exact_iff hd (charsRead_le digits.length)
    rw [hall] at hexact
    simp only [integerLiteral, literalValue, Bool.false_eq_true, if_false, Int.natCast_inj]
    exact hexact
  | true =>
    simp only [integerLiteral, literalValue, if_true, List.length_cons]
    have hread := charsRead_le (digits.length + 1)
    constructor
    · intro heq
      have hzero : decimalValue digits = 0 := by omega
      refine ⟨hzero, (minus_exact_iff hd hread hzero).mp ?_⟩
      omega
    · rintro ⟨hzero, hcount⟩
      rw [(minus_exact_iff hd hread hzero).mpr hcount, hzero]
      rfl

theorem integer_literal_iff_digits :
    ExactOrRefused (getNumberLiteral (fun _ => 0) [0x31, 0x30]) 10 :=
  (integer_literal_iff (fun _ => 0) false [0x31, 0x30] (by simp [isdigit])).mpr
    (by simp [decimalValue])

/-- The literal -1 is classified as a number of 64 bits. -/
theorem minus_one_wraps : ¬ExactOrRefused (getNumberLiteral (fun _ => 0) [0x2D, 0x31]) (-1) := by
  intro h
  have hnone := h.refused (.inl (by decide))
  revert hnone
  decide

section Fractions
variable {ints fracs : List UInt8}

/-- The value of a literal with a point. -/
def rationalValue (ints fracs : List UInt8) : ℚ :=
  decimalValue ints + decimalValue fracs / 10 ^ fracs.length

/-- Behind the point the number only grows. -/
theorem double_le {cs : List UInt8} {i : Nat} {s : NumberLoop} (hs : s.floating = true)
    (hpos : 0 < s.divisor) (hcs : 0x2E ∉ cs) : s.double ≤ (numberLoop i cs s).double := by
  induction cs generalizing i s with
  | nil => exact le_refl _
  | cons c cs ih =>
    rw [List.mem_cons, not_or] at hcs
    have hturn : numberTurn i c s = { s with
        double := s.double + c.toNat / s.divisor, divisor := s.divisor * (s.divisor * 10) } := by
      rw [numberTurn, if_neg (Ne.symm hcs.1), if_pos hs]
    have hterm : 0 ≤ (c.toNat : ℚ) / s.divisor := div_nonneg (Nat.cast_nonneg _) hpos.le
    have hrest :
        s.double + c.toNat / s.divisor ≤ (numberLoop (i + 1) cs (numberTurn i c s)).double := by
      rw [hturn]
      exact ih (i := i + 1) hs (by positivity) hcs.2
    rw [numberLoop]
    linarith

theorem fraction_lt_one (hf : ∀ c ∈ fracs, isdigit c) :
    (decimalValue fracs : ℚ) / 10 ^ fracs.length < 1 := by
  rw [div_lt_one (by positivity)]
  exact_mod_cast decimalValue_lt hf

theorem fraction_eq_zero_iff : (decimalValue fracs : ℚ) / 10 ^ fracs.length = 0 ↔
    decimalValue fracs = 0 := by
  have hpow : (10 : ℚ) ^ fracs.length ≠ 0 := by positivity
  rw [div_eq_zero_iff, or_iff_left hpow, Nat.cast_eq_zero]

theorem decimalValue_take_le (text : List UInt8) (n : Nat) :
    decimalValue (text.take n) ≤ decimalValue text := by
  rcases Nat.lt_or_ge n text.length with hlt | hge
  · have hten := decimalValue_take hlt
    omega
  · rw [List.take_of_length_le hge]

theorem decimalValue_take_eq_iff {text : List UInt8} {n : Nat} (hn : n ≤ text.length) :
    decimalValue (text.take n) = decimalValue text ↔ text.length ≤ n ∨ decimalValue text = 0 := by
  rcases Nat.eq_or_lt_of_le hn with rfl | hlt
  · rw [List.take_length]
    simp
  · have hten := decimalValue_take hlt
    omega

/-- The locals when the point has just been read. -/
theorem numberLoop_integer (hi : ∀ c ∈ ints, isdigit c) (hv : decimalValue ints < 2 ^ 64) :
    numberLoop 0 ints ⟨0, 0, 10, false⟩ = ⟨.ofNat (decimalValue ints), 0, 10, false⟩ ∧
      (UInt64.ofNat (decimalValue ints)).toNat = decimalValue ints := by
  rw [numberLoop_plain rfl (point_not_digits hi), integerPart_digits hi, UInt64.toNat_ofNat',
    Nat.mod_eq_of_lt hv]
  exact ⟨rfl, rfl⟩

/-- The number computed when the reading ends in front of the point. -/
theorem computed_before_point (hi : ∀ c ∈ ints, isdigit c) (hv : decimalValue ints < 2 ^ 53)
    {n : Nat} (hn : n ≤ ints.length)
    (hread : charsRead (ints ++ 0x2E :: fracs).length = n) :
    numberComputed (ints ++ 0x2E :: fracs) = decimalValue (ints.take n) := by
  have hle := decimalValue_take_le ints n
  have htake : ∀ c ∈ ints.take n, isdigit c := fun c hc => hi c (List.mem_of_mem_take hc)
  obtain ⟨hloop, hnat⟩ := numberLoop_integer htake (by omega)
  rw [numberComputed, numberLocals, hread, List.take_append_of_le_length hn, hloop]
  simp [hnat]

/-- The number computed when the point is read. -/
theorem computed_behind_point (hi : ∀ c ∈ ints, isdigit c) (hv : decimalValue ints < 2 ^ 53)
    {n : Nat} (hread : charsRead (ints ++ 0x2E :: fracs).length = ints.length + 1 + n) :
    numberComputed (ints ++ 0x2E :: fracs) = (numberLoop (ints.length + 1) (fracs.take n)
      ⟨.ofNat (decimalValue ints), decimalValue ints, 10, true⟩).double := by
  obtain ⟨hloop, hnat⟩ := numberLoop_integer hi (by omega)
  have htake :
      (ints ++ 0x2E :: fracs).take (ints.length + 1 + n) = ints ++ 0x2E :: fracs.take n := by
    rw [List.take_append, List.take_of_length_le (by omega),
      show ints.length + 1 + n - ints.length = n + 1 by omega, List.take_succ_cons]
  rw [numberComputed, numberLocals, hread, htake, numberLoop_append, hloop, numberLoop,
    numberTurn_point, Nat.zero_add, hnat]
  exact if_pos (numberLoop_floating rfl)

/-- A digit behind the point adds its character code, at least 48, divided by 10. -/
theorem computed_exceeds {c : UInt8} (hc : isdigit c) {cs : List UInt8}
    (hcs : ∀ c ∈ cs, isdigit c) (i : Nat) (u : UInt64) (a : ℚ) :
    a + 1 < (numberLoop i (c :: cs) ⟨u, a, 10, true⟩).double := by
  have hpoint : c ≠ 0x2E := (digit_step c hc).1
  have hturn : numberTurn i c ⟨u, a, 10, true⟩ = ⟨u, a + c.toNat / 10, 10 * (10 * 10), true⟩ := by
    rw [numberTurn, if_neg hpoint, if_pos rfl]
  have hcode : 48 ≤ c.toNat := by
    simp only [isdigit, Bool.and_eq_true, decide_eq_true_eq, UInt8.le_iff_toNat_le] at hc
    exact hc.1
  have hcode' : (48 : ℚ) ≤ c.toNat := by exact_mod_cast hcode
  have hmono := double_le (i := i + 1) (s := ⟨u, a + c.toNat / 10, 10 * (10 * 10), true⟩) rfl
    (by norm_num) (point_not_digits hcs)
  rw [numberLoop, hturn]
  dsimp only at hmono
  linarith

end Fractions

/-- The number computed from a literal with a point is its value if and only if no character behind
the point is read, those characters are zeros, and the integer part is read to its end unless it
is 0. -/
theorem decimal_literal_iff (ints fracs : List UInt8) (hi : ∀ c ∈ ints, isdigit c)
    (hf : ∀ c ∈ fracs, isdigit c) (hv : decimalValue ints < 2 ^ 53) :
    numberComputed (ints ++ 0x2E :: fracs) = rationalValue ints fracs ↔
      charsRead (ints ++ 0x2E :: fracs).length ≤ ints.length + 1 ∧ decimalValue fracs = 0 ∧
        (ints.length ≤ charsRead (ints ++ 0x2E :: fracs).length ∨ decimalValue ints = 0) := by
  have hone := fraction_lt_one hf
  have hnonneg : 0 ≤ (decimalValue fracs : ℚ) / 10 ^ fracs.length := by positivity
  rw [rationalValue]
  generalize hread : charsRead (ints ++ 0x2E :: fracs).length = n
  rcases Nat.lt_or_ge ints.length n with hlt | hle
  · obtain ⟨m, rfl⟩ : ∃ m, n = ints.length + 1 + m := ⟨n - (ints.length + 1), by omega⟩
    rw [computed_behind_point hi hv hread]
    cases m with
    | zero =>
      have hiff : (decimalValue ints : ℚ) =
          decimalValue ints + decimalValue fracs / 10 ^ fracs.length ↔ decimalValue fracs = 0 := by
        rw [left_eq_add, fraction_eq_zero_iff]
      rw [List.take_zero, numberLoop, hiff]
      constructor
      · intro hzero
        exact ⟨Nat.le_refl _, hzero, .inl (by omega)⟩
      · intro h
        exact h.2.1
    | succ m =>
      have hlen := charsRead_le (ints ++ 0x2E :: fracs).length
      rw [hread, List.length_append, List.length_cons] at hlen
      obtain ⟨c, cs, rfl⟩ := List.exists_cons_of_length_pos (show 0 < fracs.length by omega)
      rw [List.forall_mem_cons] at hf
      have hrest : ∀ d ∈ cs.take m, isdigit d := fun d hd => hf.2 d (List.mem_of_mem_take hd)
      have hexceeds := computed_exceeds hf.1 hrest (ints.length + 1) (.ofNat (decimalValue ints))
        (decimalValue ints)
      rw [List.take_succ_cons]
      constructor
      · intro heq
        linarith
      · intro h
        omega
  · rw [computed_before_point hi hv hle hread, ← decimalValue_take_eq_iff hle]
    have hfront := decimalValue_take_le ints n
    have hfront' : (decimalValue (ints.take n) : ℚ) ≤ decimalValue ints := by exact_mod_cast hfront
    constructor
    · intro heq
      have hzero := fraction_eq_zero_iff.mp (le_antisymm (by linarith) hnonneg)
      refine ⟨by omega, hzero, ?_⟩
      rw [fraction_eq_zero_iff.mpr hzero, add_zero] at heq
      exact_mod_cast heq
    · rintro ⟨-, hzero, heq⟩
      rw [fraction_eq_zero_iff.mpr hzero, add_zero, heq]

theorem decimal_literal_iff_point :
    numberComputed ([0x35] ++ 0x2E :: []) = rationalValue [0x35] [] :=
  (decimal_literal_iff [0x35] [] (by simp [isdigit]) (by simp) (by simp [decimalValue])).mpr
    ⟨charsRead_le _, rfl, .inl (by rw [charsRead_of_lt] <;> simp)⟩

/-- The literal 0.5 gives 5.3. -/
theorem half_exceeds_five : numberComputed ([0x30] ++ 0x2E :: [0x35]) = 53 / 10 ∧
    numberComputed ([0x30] ++ 0x2E :: [0x35]) ≠ rationalValue [0x30] [0x35] := by
  decide +kernel

end Wtools
