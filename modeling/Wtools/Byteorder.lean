import Wtools.Library.ByteMemory
import Mathlib.Algebra.Group.Nat.Defs

/-!
# Record headers and byte order

The conversions of `bkv_byteorder.c`, the record types and sizes of `bkv_header.h`
and the header packing of `set_key`. Floats and doubles are their bit patterns; the
host is little-endian. Despite their names the functions store the most significant
byte first.
-/

namespace Wtools
open ByteMemory

inductive HeaderType where
  | mapOpen | mapClose | arrayOpen | arrayClose | int16 | int32 | int64 | string
  | float | double | boolean
  deriving DecidableEq, Repr

/-- The values of `header_type_t`, which start at 1. -/
def HeaderType.code : HeaderType → UInt8
  | .mapOpen => 1 | .mapClose => 2 | .arrayOpen => 3 | .arrayClose => 4 | .int16 => 5
  | .int32 => 6 | .int64 => 7 | .string => 8 | .float => 9 | .double => 10 | .boolean => 11

def hdrSize : Nat := 2
def mapOpenValueSize : Nat := 2
def mapCloseValueSize : Nat := 0
def stringValueSize : Nat := 2
def arrayOpenValueSize : Nat := 4
def arrayCloseValueSize : Nat := 3

def le16ToCpu (m0 m1 : UInt8) : UInt16 := (m0.toUInt16 <<< 8) + m1.toUInt16

def cpuToLe16 (v : UInt16) : List UInt8 := [((v >>> 8) &&& 0xFF).toUInt8, (v &&& 0xFF).toUInt8]

def le32ToCpu (m0 m1 m2 m3 : UInt8) : UInt32 :=
  (m0.toUInt32 <<< 24) + (m1.toUInt32 <<< 16) + (m2.toUInt32 <<< 8) + m3.toUInt32

def cpuToLe32 (v : UInt32) : List UInt8 :=
  [((v >>> 24) &&& 0xFF).toUInt8, ((v >>> 16) &&& 0xFF).toUInt8, ((v >>> 8) &&& 0xFF).toUInt8,
    (v &&& 0xFF).toUInt8]

def leU64ToCpu (m0 m1 m2 m3 m4 m5 m6 m7 : UInt8) : UInt64 :=
  (m0.toUInt64 <<< 56) + (m1.toUInt64 <<< 48) + (m2.toUInt64 <<< 40) + (m3.toUInt64 <<< 32) +
    (m4.toUInt64 <<< 24) + (m5.toUInt64 <<< 16) + (m6.toUInt64 <<< 8) + m7.toUInt64

def cpuToLeU64 (v : UInt64) : List UInt8 :=
  [((v >>> 56) &&& 0xFF).toUInt8, ((v >>> 48) &&& 0xFF).toUInt8, ((v >>> 40) &&& 0xFF).toUInt8,
    ((v >>> 32) &&& 0xFF).toUInt8, ((v >>> 24) &&& 0xFF).toUInt8, ((v >>> 16) &&& 0xFF).toUInt8,
    ((v >>> 8) &&& 0xFF).toUInt8, (v &&& 0xFF).toUInt8]

/-- The pattern whose host bytes 3 to 0 are the four bytes of `ivalue`. -/
def lefToCpu (m0 m1 m2 m3 : UInt8) : UInt32 :=
  let ivalue := le32ToCpu m0 m1 m2 m3
  le32ToCpu (ivalue >>> 24).toUInt8 ((ivalue >>> 16) &&& 0xFF).toUInt8
    ((ivalue >>> 8) &&& 0xFF).toUInt8 (ivalue &&& 0xFF).toUInt8

def floatTmp (v : UInt32) : UInt32 :=
  (v &&& 0xFF000000) ||| (v &&& 0x07800000) ||| (v &&& 0x007FFFFF)

def cpuToLef (v : UInt32) : List UInt8 := cpuToLe32 (floatTmp v)

/-- What `cpu_to_le_double` stores: the 32 low bits, sign-extended. -/
def doubleStored (v : UInt64) : UInt64 := (floatTmp v.toUInt32).toInt32.toInt64.toUInt64

def cpuToLeDouble (v : UInt64) : List UInt8 := cpuToLeU64 (doubleStored v)

def leDoubleToCpu (m0 m1 m2 m3 m4 m5 m6 m7 : UInt8) : UInt64 :=
  let ivalue := leU64ToCpu m0 m1 m2 m3 m4 m5 m6 m7
  leU64ToCpu ((ivalue >>> 56) &&& 0xFF).toUInt8 ((ivalue >>> 48) &&& 0xFF).toUInt8
    ((ivalue >>> 40) &&& 0xFF).toUInt8 ((ivalue >>> 32) &&& 0xFF).toUInt8
    ((ivalue >>> 24) &&& 0xFF).toUInt8 ((ivalue >>> 16) &&& 0xFF).toUInt8
    ((ivalue >>> 8) &&& 0xFF).toUInt8 (ivalue &&& 0xFF).toUInt8

/-- The first header byte; bits 12 to 15 of the key fall into the type nibble. -/
def hdrByte (hdr_type : HeaderType) (key : UInt16) : UInt8 :=
  ((hdr_type.code <<< (4 : UInt8)) &&& (0xFF : UInt8)) ||| ((key >>> 8) &&& 0xFF).toUInt8

def setKey (hdr_type : HeaderType) (key : UInt16) : List UInt8 :=
  [hdrByte hdr_type key, (key &&& 0xFF).toUInt8]

/-- The type nibble of a first header byte. -/
def hdrNibble (b0 : UInt8) : UInt8 := (b0 >>> 4) &&& 0xF

def hdrKey (b0 b1 : UInt8) : UInt16 := ((b0 &&& 0xF).toUInt16 <<< 8) + (b1 &&& 0xFF).toUInt16

@[simp] theorem cpuToLe16_length (v : UInt16) : (cpuToLe16 v).length = 2 := rfl
@[simp] theorem cpuToLe32_length (v : UInt32) : (cpuToLe32 v).length = 4 := rfl
@[simp] theorem cpuToLeU64_length (v : UInt64) : (cpuToLeU64 v).length = 8 := rfl
@[simp] theorem cpuToLef_length (v : UInt32) : (cpuToLef v).length = 4 := rfl
@[simp] theorem cpuToLeDouble_length (v : UInt64) : (cpuToLeDouble v).length = 8 := rfl
@[simp] theorem setKey_length (t : HeaderType) (key : UInt16) : (setKey t key).length = 2 := rfl

theorem and_byte (n : Nat) : n &&& 255 = n % 256 := Nat.and_two_pow_sub_one_eq_mod n 8

theorem le16ToCpu_toNat (m0 m1 : UInt8) : (le16ToCpu m0 m1).toNat = m0.toNat * 256 + m1.toNat := by
  have h0 := m0.toNat_lt
  have h1 := m1.toNat_lt
  simp [le16ToCpu, Nat.shiftLeft_eq]
  omega

theorem le32ToCpu_toNat (m0 m1 m2 m3 : UInt8) : (le32ToCpu m0 m1 m2 m3).toNat =
    m0.toNat * 2 ^ 24 + m1.toNat * 2 ^ 16 + m2.toNat * 2 ^ 8 + m3.toNat := by
  have h0 := m0.toNat_lt
  have h1 := m1.toNat_lt
  have h2 := m2.toNat_lt
  have h3 := m3.toNat_lt
  simp [le32ToCpu, Nat.shiftLeft_eq]
  omega

theorem leU64ToCpu_toNat (m0 m1 m2 m3 m4 m5 m6 m7 : UInt8) :
    (leU64ToCpu m0 m1 m2 m3 m4 m5 m6 m7).toNat =
      m0.toNat * 2 ^ 56 + m1.toNat * 2 ^ 48 + m2.toNat * 2 ^ 40 + m3.toNat * 2 ^ 32 +
        m4.toNat * 2 ^ 24 + m5.toNat * 2 ^ 16 + m6.toNat * 2 ^ 8 + m7.toNat := by
  have h0 := m0.toNat_lt
  have h1 := m1.toNat_lt
  have h2 := m2.toNat_lt
  have h3 := m3.toNat_lt
  have h4 := m4.toNat_lt
  have h5 := m5.toNat_lt
  have h6 := m6.toNat_lt
  have h7 := m7.toNat_lt
  simp [leU64ToCpu, Nat.shiftLeft_eq]
  omega

theorem le16ToCpu_cpuToLe16 (v : UInt16) :
    le16ToCpu ((v >>> 8) &&& 0xFF).toUInt8 (v &&& 0xFF).toUInt8 = v := by
  apply UInt16.toNat_inj.mp
  have hv := v.toNat_lt
  rw [le16ToCpu_toNat]
  simp [Nat.shiftRight_eq_div_pow, and_byte]
  omega

theorem le32ToCpu_cpuToLe32 (v : UInt32) :
    le32ToCpu ((v >>> 24) &&& 0xFF).toUInt8 ((v >>> 16) &&& 0xFF).toUInt8
      ((v >>> 8) &&& 0xFF).toUInt8 (v &&& 0xFF).toUInt8 = v := by
  apply UInt32.toNat_inj.mp
  have hv := v.toNat_lt
  rw [le32ToCpu_toNat]
  simp [Nat.shiftRight_eq_div_pow, and_byte]
  omega

theorem leU64ToCpu_cpuToLeU64 (v : UInt64) :
    leU64ToCpu ((v >>> 56) &&& 0xFF).toUInt8 ((v >>> 48) &&& 0xFF).toUInt8
      ((v >>> 40) &&& 0xFF).toUInt8 ((v >>> 32) &&& 0xFF).toUInt8
      ((v >>> 24) &&& 0xFF).toUInt8 ((v >>> 16) &&& 0xFF).toUInt8
      ((v >>> 8) &&& 0xFF).toUInt8 (v &&& 0xFF).toUInt8 = v := by
  apply UInt64.toNat_inj.mp
  have hv := v.toNat_lt
  rw [leU64ToCpu_toNat]
  simp [Nat.shiftRight_eq_div_pow, and_byte]
  omega

theorem lefToCpu_eq (m0 m1 m2 m3 : UInt8) : lefToCpu m0 m1 m2 m3 = le32ToCpu m0 m1 m2 m3 := by
  have hb := le32ToCpu_cpuToLe32 (le32ToCpu m0 m1 m2 m3)
  have ht : ((le32ToCpu m0 m1 m2 m3 >>> 24) &&& 0xFF).toUInt8 =
      (le32ToCpu m0 m1 m2 m3 >>> 24).toUInt8 := by
    apply UInt8.toNat_inj.mp
    simp [Nat.shiftRight_eq_div_pow, and_byte]
  rw [ht] at hb
  exact hb

theorem leDoubleToCpu_eq (m0 m1 m2 m3 m4 m5 m6 m7 : UInt8) :
    leDoubleToCpu m0 m1 m2 m3 m4 m5 m6 m7 = leU64ToCpu m0 m1 m2 m3 m4 m5 m6 m7 :=
  leU64ToCpu_cpuToLeU64 _

/-- The three masks of `cpu_to_lef` cover all 32 bits. -/
theorem floatTmp_eq (v : UInt32) : floatTmp v = v := by
  apply UInt32.toBitVec_inj.mp
  simp only [floatTmp, UInt32.toBitVec_or, UInt32.toBitVec_and, ← BitVec.and_or_distrib_left]
  exact BitVec.and_allOnes

theorem hdrKey_setKey (t : HeaderType) (key : UInt16) :
    (hdrKey (hdrByte t key) (key &&& 0xFF).toUInt8).toNat = key.toNat % 4096 := by
  have hlow : hdrByte t key &&& (0xF : UInt8) =
    ((key >>> 8) &&& 0xFF).toUInt8 &&& (0xF : UInt8) := by
    apply UInt8.toBitVec_inj.mp
    simp only [hdrByte, UInt8.toBitVec_or, UInt8.toBitVec_and, BitVec.and_or_distrib_right]
    have ht : (t.code <<< (4 : UInt8)).toBitVec &&& UInt8.toBitVec 255 &&& UInt8.toBitVec 15 =
      0 := by
      cases t <;> decide
    rw [ht]
    exact BitVec.zero_or
  have hk := key.toNat_lt
  have h15 (n : Nat) : n &&& 15 = n % 16 := Nat.and_two_pow_sub_one_eq_mod n 4
  rw [hdrKey, hlow]
  simp [Nat.shiftRight_eq_div_pow, Nat.shiftLeft_eq, and_byte, h15]
  omega

theorem hdrNibble_setKey {t : HeaderType} {key : UInt16} (h : key ≤ 0xFFF) :
    hdrNibble (hdrByte t key) = t.code := by
  have hhi : ((key >>> 8) &&& 0xFF).toUInt8 >>> 4 = 0 := by
    apply UInt8.toNat_inj.mp
    have hk : key.toNat ≤ 4095 := UInt16.le_iff_toNat_le.mp h
    simp [Nat.shiftRight_eq_div_pow, and_byte]
    omega
  have hor : hdrByte t key >>> (4 : UInt8) =
      (((t.code <<< (4 : UInt8)) &&& (0xFF : UInt8)) >>> (4 : UInt8)) |||
        (((key >>> 8) &&& 0xFF).toUInt8 >>> (4 : UInt8)) :=
    UInt8.shiftRight_or
  rw [hdrNibble, hor, hhi]
  cases t <;> decide

theorem hdrKey_setKey_of_le {t : HeaderType} {key : UInt16} (h : key ≤ 0xFFF) :
    hdrKey (hdrByte t key) (key &&& 0xFF).toUInt8 = key := by
  have hk : key.toNat ≤ 4095 := UInt16.le_iff_toNat_le.mp h
  apply UInt16.toNat_inj.mp
  rw [hdrKey_setKey]
  omega

end Wtools
