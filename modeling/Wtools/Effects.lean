import Wtools.Document

/-!
# What one call does

For a handle in RAM each writer function is reduced to its check of the state and to
what it does to the handle when it is accepted. The thirteen adds differ only in the
room they ask for, the bytes they store and the bytes they leave out.
-/

namespace Wtools
open ByteMemory

/-- The handle after `bkv_prepare`. -/
def grow (env : Env) (h : Bkv) (size_in_bits : Nat) : Bkv :=
  { h with memSize := (bkvPrepare env h size_in_bits).2.memSize }

theorem bkvPrepare_grow (env : Env) (h : Bkv) (n : Nat) :
    (bkvPrepare env h n).2 = grow env h n := by
  simp only [grow, bkvPrepare]
  repeat' split
  all_goals rfl

theorem bkvPrepare_ram (env : Env) {h : Bkv} (hfd : h.fd = -1) (n : Nat) :
    (bkvPrepare env h n).1 ≠ -1 := by
  simp only [bkvPrepare, hfd, ne_eq, not_true_eq_false, if_false, bkvMemTruncate]
  repeat' split
  all_goals simp [bkvInvArg, bkvOk, bkvHdlMem]

theorem emit_emit (h : Bkv) (bs cs : List UInt8) : (h.emit bs).emit cs = h.emit (bs ++ cs) := by
  simp [Bkv.emit, Bkv.store, Bkv.skip, put_put, Nat.add_assoc, List.range'_append_1]

def Scalar.hdrType : Scalar → HeaderType
  | .u16 _ => .int16 | .u32 _ => .int32 | .u64 _ => .int64 | .float _ => .float
  | .double _ => .double | .boolean _ => .boolean | .str _ | .wchar _ => .string

/-- The bytes stored after the header. -/
def Scalar.payload : Scalar → List UInt8
  | .u16 v => cpuToLe16 v
  | .u32 v => cpuToLe32 v
  | .u64 v => cpuToLeU64 v
  | .float v => cpuToLef v
  | .double v => cpuToLeDouble v
  | .boolean v => [if v then 1 else 0]
  | .str s => cpuToLe16 (.ofNat s.length) ++ s
  | .wchar s => cpuToLe16 (.ofNat (s.length * sizeofWchar)) ++ (wcharBytes s).take s.length

/-- The bytes a wide string moves past without storing them. -/
def Scalar.gap : Scalar → Nat
  | .wchar s => 3 * s.length
  | _ => 0

/-- The bytes of the string given to an add; a wide character takes four. -/
def Scalar.strLen : Scalar → Nat
  | .str s => s.length
  | .wchar s => s.length * sizeofWchar
  | _ => 0

theorem strLen_payload {v : Scalar} (hv : v.hdrType = .string) :
    ∃ bs, v.payload = cpuToLe16 (.ofNat v.strLen) ++ bs := by
  cases v <;> simp [Scalar.hdrType] at hv
  · exact ⟨_, rfl⟩
  · exact ⟨_, rfl⟩

theorem strLen_of_ne {v : Scalar} (hv : v.hdrType ≠ .string) : v.strLen = 0 := by
  cases v <;> simp [Scalar.hdrType, Scalar.strLen] at hv ⊢

def Elem.scalar : Elem → Scalar
  | .u16 v => .u16 v | .u64 v => .u64 v | .float v => .float v | .boolean v => .boolean v
  | .str s => .str s

def Entry.key : Entry → UInt16
  | .keyed key _ => key
  | .elem _ => bkvArrayKey

def Entry.scalar : Entry → Scalar
  | .keyed _ v => v
  | .elem v => v.scalar

theorem key_of_inRange {e : Entry} (h : (Call.add e).inRange) : e.key ≤ 0xFFF := by
  cases e with
  | keyed key v => simpa [Call.inRange, Entry.key] using h
  | elem v => exact (by decide : bkvArrayKey ≤ 0xFFF)

def Entry.bytes (e : Entry) : List UInt8 := setKey e.scalar.hdrType e.key ++ e.scalar.payload

def Entry.width (e : Entry) : Nat := e.bytes.length + e.scalar.gap

/-- The bits each add gives to `bkv_prepare`. -/
def Entry.asked : Entry → Nat
  | .keyed _ (.u16 _) => 16
  | .keyed _ (.u32 _) => 32
  | .keyed _ (.float _) | .keyed _ (.boolean _) => 48
  | .keyed _ (.double _) | .keyed _ (.u64 _) => 80
  | .keyed _ (.str s) => (4 + s.length) * 8
  | .keyed _ (.wchar s) => (4 + s.length) * 8
  | .elem (.u16 _) => 32
  | .elem (.float _) | .elem (.boolean _) => 48
  | .elem (.u64 _) => 80
  | .elem (.str s) => (4 + s.length) * 8

def Entry.action : Entry → Action
  | .keyed _ _ => .setKey
  | .elem _ => .setArrayKey

def Entry.counts : Entry → Bool
  | .keyed _ _ | .elem (.u64 _) => false
  | .elem _ => true

/-- What an accepted add does. -/
def Bkv.add (env : Env) (h : Bkv) (e : Entry) : Bkv :=
  let h' := ((grow env h e.asked).emit e.bytes).skip e.scalar.gap
  if e.counts then h'.countElem else h'

theorem check_setArrayKey (s : State) (t t' : UInt8) :
    bkvCheckState s t .setArrayKey = bkvCheckState s t' .setArrayKey := by
  cases s <;> simp [bkvCheckState]

theorem wcharBytes_length (s : List UInt32) : (wcharBytes s).length = 4 * s.length := by
  induction s with
  | nil => rfl
  | cons c s ih =>
    simp only [wcharBytes, List.flatMap_cons, List.length_append, List.length_reverse,
      cpuToLe32_length, List.length_cons] at ih ⊢
    omega

theorem keyedAdd_eq (env : Env) {h : Bkv} (hfd : h.fd = -1) (key : UInt16) (n : Nat)
    (t : HeaderType) (payload : List UInt8) : keyedAdd env h key n t payload =
      if key > 0xFFF then (bkvKeyOutOfRange, h)
      else if bkvCheckState h.state (h.deepValue h.deepOffset) .setKey = -1 then (bkvHdlInv, h)
      else (bkvOk, (grow env h n).emit (setKey t key ++ payload)) := by
  simp only [keyedAdd, bkvPrepare_ram env hfd n, if_false, emit_emit, bkvPrepare_grow]

theorem bkvKvWcharAdd_eq (env : Env) {h : Bkv} (hfd : h.fd = -1) (key : UInt16) (s : List UInt32) :
    bkvKvWcharAdd env h key s =
      if key > 0xFFF then (bkvKeyOutOfRange, h)
      else if bkvCheckState h.state (h.deepValue h.deepOffset) .setKey = -1 then (bkvHdlInv, h)
      else (bkvOk, h.add env (.keyed key (.wchar s))) := by
  have hlen : ((wcharBytes s).take s.length).length = s.length := by
    rw [List.length_take, wcharBytes_length]
    omega
  have hstored : ∀ g : Bkv, (g.store g.writeOffset ((wcharBytes s).take s.length)).skip
      (s.length * sizeofWchar) = (g.emit ((wcharBytes s).take s.length)).skip (3 * s.length) := by
    intro g
    simp only [Bkv.emit, Bkv.skip, Bkv.store, hlen, sizeofWchar]
    congr 1
    omega
  simp only [bkvKvWcharAdd, bkvPrepare_ram env hfd, if_false, hstored, emit_emit, Bkv.add,
    bkvPrepare_grow,
    Entry.bytes, Entry.key, Entry.scalar, Entry.asked, Entry.counts, Scalar.hdrType, Scalar.payload,
    Scalar.gap, hdrSize, stringValueSize, List.append_assoc, Bool.false_eq_true]

theorem arrayAdd_eq (env : Env) {h : Bkv} (hfd : h.fd = -1) (t : UInt8) (n : Nat)
    (hdr_type : HeaderType) (payload : List UInt8) : arrayAdd env h t n hdr_type payload =
      if bkvCheckState h.state (h.deepValue h.deepOffset) .setArrayKey = -1 then (bkvHdlInv, h)
      else (bkvOk, (grow env h n).emit (setKey hdr_type bkvArrayKey ++ payload)) := by
  simp only [arrayAdd, bkvPrepare_ram env hfd n, if_false, emit_emit, bkvPrepare_grow,
    check_setArrayKey h.state t (h.deepValue h.deepOffset)]

theorem counted_ite (h g : Bkv) (p : Prop) [Decidable p] :
    counted (if p then (bkvHdlInv, h) else (bkvOk, g)) =
      if p then (bkvHdlInv, h) else (bkvOk, g.countElem) := by
  by_cases hp : p <;> simp [counted, hp, bkvHdlInv, bkvOk]

/-- One spec for the thirteen adds. -/
theorem execAdd_eq (env : Env) {h : Bkv} (hfd : h.fd = -1) (e : Entry) : execAdd env h e =
    if (Call.add e).inRange = false then (bkvKeyOutOfRange, h)
    else if bkvCheckState h.state (h.deepValue h.deepOffset) e.action = -1 then (bkvHdlInv, h)
    else (bkvOk, h.add env e) := by
  cases e with
  | keyed key v =>
    have hkey : ((Call.add (.keyed key v)).inRange = false) = (key > 0xFFF) := by
      simp [Call.inRange]
    simp only [hkey]
    cases v with
    | wchar s => exact bkvKvWcharAdd_eq env hfd key s
    | _ =>
      simp only [execAdd, bkvKvU16Add, bkvKvU32Add, bkvKvU64Add, bkvKvFloatAdd, bkvKvDoubleAdd,
        bkvKvBooleanAdd, bkvKvStrAdd, keyedAdd_eq env hfd]
      rfl
  | elem v =>
    simp only [Call.inRange, Bool.true_eq_false, if_false]
    cases v <;>
      simp only [execAdd, bkvKvArrayU16Add, bkvKvArrayU64Add, bkvKvArrayFloatAdd,
        bkvKvArrayBooleanAdd, bkvKvArrayStrAdd, arrayAdd_eq env hfd, counted_ite] <;>
      rfl

def Kind.openType : Kind → HeaderType
  | .map => .mapOpen | .array => .arrayOpen

def Kind.closeType : Kind → HeaderType
  | .map => .mapClose | .array => .arrayClose

def Kind.char : Kind → UInt8
  | .map => mapKey | .array => arrayKey

def Kind.state : Kind → State
  | .map => .inMap | .array => .inArray

def Kind.openAsked : Kind → Nat
  | .map => 32 | .array => 16

def Kind.closeAsked : Kind → Nat
  | .map => 64 | .array => 16

def Kind.openAction : Kind → Action
  | .map => .openMap | .array => .openArray

def Kind.closeAction : Kind → Action
  | .map => .closeMap | .array => .closeArray

def Kind.openWidth : Kind → Nat
  | .map => 4 | .array => 6

def Kind.closeWidth : Kind → Nat
  | .map => 2 | .array => 5

def Call.width : Call → Nat
  | .opening k _ => k.openWidth
  | .closing k => k.closeWidth
  | .add e => e.width

/-- What an accepted `bkv_kv_map_open` or `bkv_kv_array_open` does. -/
def Bkv.openIn (env : Env) (h : Bkv) (k : Kind) (key : UInt16) : Bkv :=
  let h' := ((grow env h k.openAsked).emit (setKey k.openType key)).skip (k.openWidth - 2)
  { h' with
    mapOffset := h.mapOffset.set (h.deepOffset + 1) h.writeOffset
    deepOffset := h.deepOffset + 1
    deepValue := h.deepValue.set (h.deepOffset + 1) k.char
    state := k.state }

theorem exec_opening (env : Env) {h : Bkv} (hfd : h.fd = -1) (k : Kind) (key : UInt16) :
    exec env h (.opening k key) =
      if bkvCheckState h.state (openValue h) k.openAction = -1 then (bkvHdlInv, h)
      else (bkvOk, h.openIn env k key) := by
  cases k <;>
    simp only [exec, bkvKvMapOpen, bkvKvArrayOpen, bkvPrepare_ram env hfd, if_false,
      bkvPrepare_grow, Kind.openAction, Bkv.openIn, Kind.openAsked, Kind.openType, Kind.openWidth,
      Kind.char, Kind.state] <;>
    rfl

/-- The bytes of a close record; its second byte is never stored. -/
def Kind.closePattern : Kind → Pattern
  | .map => [some 0x20, none]
  | .array => [some 0x40, none, some 0xee, some 0xee, some 0xee]

/-- The length field of a container from `o` to `e`. -/
def lengthBytes (e o : Nat) : List UInt8 := cpuToLe16 (.ofInt (e - o))

@[simp] theorem lengthBytes_length (e o : Nat) : (lengthBytes e o).length = 2 := rfl

theorem lengthBytes_eq {e o : Nat} (h : o ≤ e) : lengthBytes e o = cpuToLe16 (.ofNat (e - o)) := by
  have hn : ((↑(e - o) : Int) % 2 ^ 16).toNat = (e - o) % 2 ^ 16 := by omega
  rw [lengthBytes, ← Int.ofNat_sub h, UInt16.ofInt, hn, UInt16.ofNat_mod_size]

/-- The memory after a container opened at `o` is closed at `w`. -/
def Kind.closeMem (m : Mem) (w o n : Nat) : Kind → Mem
  | .map => put (put m w [0x20]) (o + 2) (lengthBytes (w + 2) o)
  | .array =>
    put (put (put (put m w [0x40]) (w + 2) [0xee, 0xee, 0xee]) (o + 4) (cpuToLe16 (.ofNat n)))
      (o + 2) (lengthBytes (w + 5) o)

def Kind.closeStores (w o : Nat) : Kind → List Nat
  | .map => [w, o + 2, o + 3]
  | .array => [w, w + 2, w + 3, w + 4, o + 4, o + 5, o + 2, o + 3]

section CloseMem
variable {m : Mem} {w o n : Nat} {k : Kind}

theorem closeMem_closing (h : o + k.openWidth ≤ w) :
    Fits (k.closeMem m w o n) w k.closePattern := by
  cases k with
  | map =>
    have h₁ : Fits (put m w [0x20]) w (known [0x20] ++ [none]) :=
      fits_append.mpr ⟨fits_put, trivial⟩
    exact h₁.put_disjoint (.inr (by simpa [Kind.openWidth] using h))
  | array =>
    have h₀ : Fits (put m w [0x40]) w (known [0x40] ++ [none]) :=
      fits_append.mpr ⟨fits_put, trivial⟩
    have h₁ : Fits (put (put m w [0x40]) (w + 2) [0xee, 0xee, 0xee]) w (known [0x40] ++ [none]) :=
      h₀.put_disjoint (.inl (by simp))
    have h₂ : Fits (put (put m w [0x40]) (w + 2) [0xee, 0xee, 0xee]) w Kind.array.closePattern :=
      fits_append.mpr ⟨h₁, (fits_put : Fits _ _ (known [0xee, 0xee, 0xee]))⟩
    simp only [Kind.openWidth] at h
    exact (h₂.put_disjoint (.inr (by simpa using h))).put_disjoint (.inr (by simp; omega))

theorem closeMem_length (h : o ≤ w) :
    Holds (k.closeMem m w o n) (o + 2) (cpuToLe16 (.ofNat (w + k.closeWidth - o))) := by
  cases k <;>
  · simp only [Kind.closeMem, Kind.closeWidth]
    rw [lengthBytes_eq (by omega)]
    exact holds_put

theorem closeMem_below : AgreeOn m (k.closeMem m w o n) 0 (min w (o + 2)) := by
  cases k with
  | map => exact (put_agree_below (by omega)).trans (put_agree_below (by omega))
  | array =>
    exact (((put_agree_below (by omega)).trans (put_agree_below (by omega))).trans
      (put_agree_below (by omega))).trans (put_agree_below (by omega))

theorem closeMem_body : AgreeOn m (k.closeMem m w o n) (o + k.openWidth) w := by
  cases k with
  | map => exact (put_agree_below (by omega)).trans (put_agree_above (by simp [Kind.openWidth]))
  | array =>
    exact (((put_agree_below (by omega)).trans (put_agree_below (by omega))).trans
      (put_agree_above (by simp [Kind.openWidth]))).trans
      (put_agree_above (by simp [Kind.openWidth]))

end CloseMem

/-- What an accepted `bkv_kv_map_close` or `bkv_kv_array_close` does. -/
def Bkv.closeIn (env : Env) (h : Bkv) (k : Kind) : Bkv :=
  let o := h.mapOffset h.deepOffset
  let h' : Bkv := { grow env h k.closeAsked with
    ptr := k.closeMem h.ptr h.writeOffset o (h.arrayNbElems h.deepOffset)
    writeOffset := h.writeOffset + k.closeWidth
    deepOffset := h.deepOffset - 1
    deepValue := if k = .array then h.deepValue.set h.deepOffset 0 else h.deepValue
    stores := h.stores ++ k.closeStores h.writeOffset o }
  { h' with state :=
      if h.deepOffset - 1 ≠ -1 then stateOf h' else if k = .map then .term else h.state }

theorem exec_closing (env : Env) {h : Bkv} (hfd : h.fd = -1) (k : Kind) :
    exec env h (.closing k) =
      if bkvCheckState h.state (h.deepValue h.deepOffset) k.closeAction = -1 then (bkvHdlInv, h)
      else (bkvOk, h.closeIn env k) := by
  have hmap : (HeaderType.mapClose.code <<< (4 : UInt8)) &&& (0xFF : UInt8) = 0x20 := rfl
  have harr : (HeaderType.arrayClose.code <<< (4 : UInt8)) &&& (0xFF : UInt8) = 0x40 := rfl
  cases k with
  | map =>
    simp only [exec, bkvKvMapClose, hmap, bkvPrepare_ram env hfd, if_false, bkvPrepare_grow,
      Kind.closeAction, Bkv.closeIn, Kind.closeAsked]
    split
    · rfl
    · by_cases hd : h.deepOffset - 1 = -1 <;>
        simp [grow, Bkv.store, Bkv.skip, hd, Kind.closeMem, Kind.closeStores, lengthBytes, hdrSize,
          mapCloseValueSize, Kind.closeWidth, stateOf, List.range']
  | array =>
    simp only [exec, bkvKvArrayClose, harr, bkvPrepare_ram env hfd, if_false, bkvPrepare_grow,
      Kind.closeAction, Bkv.closeIn, Kind.closeAsked]
    split
    · rfl
    · by_cases hd : h.deepOffset - 1 = -1 <;>
        simp [grow, Bkv.store, Bkv.skip, hd, Kind.closeMem, Kind.closeStores, lengthBytes, hdrSize,
          arrayCloseValueSize, Kind.closeWidth, stateOf, List.range', Int.add_assoc]

section Append
variable (env : Env) (h : Bkv) (a : Tail)

/-- A splice is refused, or the bytes are at the end and only the size of the buffer is new. -/
theorem bkvAppend_cases : ((bkvAppend env h a).1 ≠ bkvOk ∧ (bkvAppend env h a).2 = h) ∨
    ∃ n, bkvAppend env h a =
      (bkvOk, ({ h with memSize := n } : Bkv).emit (slice a.ptr 0 a.writeOffset)) := by
  unfold bkvAppend
  dsimp only
  split
  · split
    · split
      · exact .inl ⟨by simp [bkvHdlInv, bkvOk], rfl⟩
      · exact .inr ⟨_, rfl⟩
    · split
      · exact .inl ⟨by simp [bkvHdlMem, bkvOk], rfl⟩
      · exact .inr ⟨_, rfl⟩
  · exact .inr ⟨h.memSize, rfl⟩

theorem append_granted {h : Bkv} (hfd : h.fd = -1) (hre : ∀ n, env.realloc n) :
    (bkvAppend env h a).1 = bkvOk := by
  unfold bkvAppend
  dsimp only
  split
  · rw [if_neg (not_not_intro hfd), if_neg (by simp [hre])]
  · rfl

end Append

end Wtools
