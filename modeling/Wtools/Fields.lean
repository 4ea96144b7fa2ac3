import Wtools.Layout

/-!
# The fields of the headers

Keys, string lengths and container lengths are stored in 12 and 16 bits. This module
says when a finished document holds in these fields what was given to the writer.
-/

namespace Wtools
open ByteMemory Forest

/-- The bytes up to the end of the close record of the container `d` levels out. -/
def widthToClose : Nat → List Call → Nat
  | _, [] => 0
  | d, .opening k _ :: cs => k.openWidth + widthToClose (d + 1) cs
  | 0, .closing k :: _ => k.closeWidth
  | d + 1, .closing k :: cs => k.closeWidth + widthToClose d cs
  | d, .add e :: cs => e.width + widthToClose d cs

/-- The bytes of a container, from its header to the end of its close record. -/
def extent (k : Kind) (cs : List Call) : Nat := k.openWidth + widthToClose 0 cs

/-- The 16 bits at an offset. -/
def field16 (m : Mem) (off : Nat) : Nat := (le16ToCpu (m off) (m (off + 1))).toNat

/-- The record at `off` has the type, the key and the length of the call that wrote it;
`cs` are the calls after it. -/
def ExactAt (m : Mem) (off : Nat) (cs : List Call) : Call → Prop
  | .opening k key =>
    hdrNibble (m off) = k.openType.code ∧ hdrKey (m off) (m (off + 1)) = key ∧
      field16 m (off + 2) = extent k cs
  | .closing k => hdrNibble (m off) = k.closeType.code
  | .add e =>
    hdrNibble (m off) = e.scalar.hdrType.code ∧ hdrKey (m off) (m (off + 1)) = e.key ∧
      (e.scalar.hdrType = .string → field16 m (off + 2) = e.scalar.strLen)

/-- All records from `off` on are those of the calls, with nothing cut off. -/
def FieldsExact (m : Mem) : Nat → List Call → Prop
  | _, [] => True
  | off, c :: cs => ExactAt m off cs c ∧ FieldsExact m (off + c.width) cs

/-- The keys of the containers have 12 bits, strings and containers at most 65535 bytes. -/
def FieldsFit : List Call → Prop
  | [] => True
  | .opening k key :: cs => (key ≤ 0xFFF ∧ extent k cs ≤ 65535) ∧ FieldsFit cs
  | .closing _ :: cs => FieldsFit cs
  | .add e :: cs => e.scalar.strLen ≤ 65535 ∧ FieldsFit cs

theorem widthToClose_calls (d : Nat) (f : Items) (cs : List Call) :
    widthToClose d (calls f ++ cs) = size f + widthToClose d cs := by
  induction f generalizing d cs with
  | nil => simp [size]
  | leaf e rest ih => simp [widthToClose, size, ih, Nat.add_assoc]
  | node l body rest ihb ih =>
    obtain ⟨k, key⟩ := l
    rw [calls_node, List.cons_append, List.append_assoc, List.cons_append, widthToClose, ihb,
      widthToClose, ih, size]
    dsimp only
    omega

theorem extent_calls (k : Kind) (f : Items) (cs : List Call) :
    extent k (calls f ++ .closing k :: cs) = k.openWidth + size f + k.closeWidth := by
  rw [extent, widthToClose_calls, widthToClose, Nat.add_assoc]

theorem field16_holds {m : Mem} {off n : Nat} (h : Holds m off (cpuToLe16 (.ofNat n))) :
    field16 m off = n % 65536 := by
  simp only [cpuToLe16, holds_cons] at h
  rw [field16, h.1, h.2.1, le16ToCpu_cpuToLe16]
  exact UInt16.toNat_ofNat'

theorem setKey_exact {m : Mem} {off : Nat} {t : HeaderType} {key : UInt16}
    (h : Holds m off (setKey t key)) :
    (hdrNibble (m off) = t.code ∧ hdrKey (m off) (m (off + 1)) = key) ↔ key ≤ 0xFFF := by
  simp only [setKey, holds_cons] at h
  rw [h.1, h.2.1]
  constructor
  · rintro ⟨-, hk⟩
    have hn := hdrKey_setKey t key
    rw [hk] at hn
    exact UInt16.le_iff_toNat_le.mpr (by simp; omega)
  · intro hk
    exact ⟨hdrNibble_setKey hk, hdrKey_setKey_of_le hk⟩

theorem opening_exact {m : Mem} {off n : Nat} {k : Kind} {key : UInt16} {cs : List Call}
    (h : Fits m off (k.header key n)) (hn : extent k cs = n) :
    ExactAt m off cs (.opening k key) ↔ key ≤ 0xFFF ∧ extent k cs ≤ 65535 := by
  rw [Kind.header, fits_append, fits_known, holds_append, setKey_length] at h
  rw [ExactAt, ← and_assoc, setKey_exact h.1.1, field16_holds h.1.2, hn]
  have hmod : n % 65536 = n ↔ n ≤ 65535 := by omega
  rw [hmod]

theorem add_exact {m : Mem} {off : Nat} {e : Entry} {cs : List Call} (h : Fits m off e.pattern)
    (hr : (Call.add e).inRange) : ExactAt m off cs (.add e) ↔ e.scalar.strLen ≤ 65535 := by
  rw [Entry.pattern, fits_append, fits_known, Entry.bytes, holds_append, setKey_length] at h
  rw [ExactAt, ← and_assoc, setKey_exact h.1.1]
  simp only [key_of_inRange hr, true_and]
  by_cases hv : e.scalar.hdrType = .string
  · obtain ⟨bs, hbs⟩ := strLen_payload hv
    have hp := h.1.2
    rw [hbs, holds_append] at hp
    rw [field16_holds hp.1]
    simp only [hv, forall_const]
    omega
  · simp [hv, strLen_of_ne hv]

theorem closing_exact {m : Mem} {off : Nat} {k : Kind} {cs : List Call}
    (h : Fits m off k.closePattern) : ExactAt m off cs (.closing k) := by
  cases k <;>
  · rw [ExactAt, h.1]
    rfl

/-- Over the records of the contents of a container, the fields are exact where they fit. -/
theorem fieldsExact_calls {m : Mem} {off : Nat} {f : Items} {cs : List Call}
    (h : Fits m off (enc f)) (hr : ∀ c ∈ calls f, c.inRange)
    (hcs : FieldsExact m (off + size f) cs ↔ FieldsFit cs) :
    FieldsExact m off (calls f ++ cs) ↔ FieldsFit (calls f ++ cs) := by
  induction f generalizing off cs with
  | nil => simpa [size] using hcs
  | leaf e rest ih =>
    rw [fits_leaf] at h
    rw [calls_leaf, List.forall_mem_cons] at hr
    rw [calls_leaf, List.cons_append, FieldsExact, FieldsFit, add_exact h.1 hr.1]
    rw [size, ← Nat.add_assoc] at hcs
    exact and_congr_right' (ih h.2 hr.2 hcs)
  | node l body rest ihb ih =>
    obtain ⟨k, key⟩ := l
    obtain ⟨hh, hb, hc, hrest⟩ := fits_node.mp h
    simp only [calls_node, List.forall_mem_cons, List.forall_mem_append] at hr
    obtain ⟨-, hrb, -, hrr⟩ := hr
    rw [size] at hcs
    rw [calls_node, List.cons_append, List.append_assoc, List.cons_append, FieldsExact, FieldsFit,
      opening_exact hh (extent_calls k body _), Call.width]
    refine and_congr_right' (ihb hb hrb ?_)
    rw [FieldsExact, FieldsFit, Call.width]
    simp only [closing_exact hc, true_and]
    apply ih hrest hrr
    rw [← hcs]
    simp only [Nat.add_assoc]

/-- A finished document has exact headers if and only if every key, string and container
fits its field. -/
theorem fieldsExact_iff (env : Env) (h₀ h : Bkv) (cs : List Call) (hf : FreshRam env h₀)
    (hr : runOk env h₀ cs = some h) (ht : h.state = .term) :
    FieldsExact h.ptr 0 cs ↔ FieldsFit cs := by
  obtain ⟨hc, key, body, -, rfl, hfit, -⟩ := closed_layout hf hr ht
  rw [← List.append_nil (calls _)]
  exact fieldsExact_calls hfit hc (by simp [FieldsExact, FieldsFit])

/-- A string, a number and an array of two elements. -/
def mixedCalls : List Call :=
  [.opening .map 1, .add (.keyed 2 (.str [0x61, 0x62])), .add (.keyed 0xFFC (.u32 70000)),
    .opening .array 3, .add (.elem (.u16 5)), .add (.elem (.boolean true)), .closing .array,
    .closing .map]

theorem fieldsExact_iff_mixed : ∃ h, runOk calmEnv ramHandle mixedCalls = some h ∧
    FieldsExact h.ptr 0 mixedCalls :=
  ⟨_, rfl, (fieldsExact_iff calmEnv ramHandle _ _ ramHandle_fresh rfl rfl).mpr
    ⟨⟨by decide, by decide⟩, by decide, by decide, ⟨by decide, by decide⟩, by decide, by decide,
      trivial⟩⟩

/-- With the key 0x2000 the record of a map has the type of the record of an array. -/
theorem map_key_truncated : FreshRam calmEnv ramHandle ∧
    ∃ h, runOk calmEnv ramHandle [.opening .map 0x2000, .closing .map] = some h ∧
      h.state = .term ∧ ¬ FieldsExact h.ptr 0 [.opening .map 0x2000, .closing .map] :=
  ⟨ramHandle_fresh, _, rfl, rfl, fun hx => absurd hx.1.1 (by decide)⟩

end Wtools
