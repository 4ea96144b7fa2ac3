import Wtools.Handle

/-!
# The writer functions

The `bkv_kv_*` functions of `bkv.c` that append records to a handle, and runs of calls
to them. A string is the list of its bytes, its `len` the length of the list; floats and
doubles are bit patterns.
-/

namespace Wtools
open ByteMemory

/-- What the keyed adds share: range of the key, state, growth, header, payload. -/
def keyedAdd (env : Env) (h : Bkv) (key : UInt16) (size_in_bits : Nat) (t : HeaderType)
    (payload : List UInt8) : Int × Bkv :=
  if key > 0xFFF then (bkvKeyOutOfRange, h)
  else if bkvCheckState h.state (h.deepValue h.deepOffset) .setKey = -1 then (bkvHdlInv, h)
  else
    let (l_ret, h') := bkvPrepare env h size_in_bits
    if l_ret = -1 then (bkvInvState, h')
    else (bkvOk, (h'.emit (setKey t key)).emit payload)

def bkvKvU16Add (env : Env) (h : Bkv) (key v : UInt16) : Int × Bkv :=
  keyedAdd env h key 16 .int16 (cpuToLe16 v)

def bkvKvU32Add (env : Env) (h : Bkv) (key : UInt16) (v : UInt32) : Int × Bkv :=
  keyedAdd env h key 32 .int32 (cpuToLe32 v)

def bkvKvFloatAdd (env : Env) (h : Bkv) (key : UInt16) (v : UInt32) : Int × Bkv :=
  keyedAdd env h key 48 .float (cpuToLef v)

def bkvKvBooleanAdd (env : Env) (h : Bkv) (key : UInt16) (v : Bool) : Int × Bkv :=
  keyedAdd env h key 48 .boolean [if v then 1 else 0]

def bkvKvDoubleAdd (env : Env) (h : Bkv) (key : UInt16) (v : UInt64) : Int × Bkv :=
  keyedAdd env h key 80 .double (cpuToLeDouble v)

def bkvKvU64Add (env : Env) (h : Bkv) (key : UInt16) (v : UInt64) : Int × Bkv :=
  keyedAdd env h key 80 .int64 (cpuToLeU64 v)

def bkvKvStrAdd (env : Env) (h : Bkv) (key : UInt16) (str : List UInt8) : Int × Bkv :=
  keyedAdd env h key ((hdrSize + stringValueSize + str.length) * 8) .string
    (cpuToLe16 (.ofNat str.length) ++ str)

def sizeofWchar : Nat := 4

/-- The host bytes of a wide string. -/
def wcharBytes (str : List UInt32) : List UInt8 :=
  str.flatMap fun c => (cpuToLe32 c).reverse

/-- The length is counted in characters where `memcpy` and `bkv_prepare` take bytes. -/
def bkvKvWcharAdd (env : Env) (h : Bkv) (key : UInt16) (str : List UInt32) : Int × Bkv :=
  if key > 0xFFF then (bkvKeyOutOfRange, h)
  else if bkvCheckState h.state (h.deepValue h.deepOffset) .setKey = -1 then (bkvHdlInv, h)
  else
    let (l_ret, h') := bkvPrepare env h ((hdrSize + stringValueSize + str.length) * 8)
    if l_ret = -1 then (bkvInvState, h')
    else
      let h' := (h'.emit (setKey .string key)).emit (cpuToLe16 (.ofNat (str.length * sizeofWchar)))
      let h' := h'.store h'.writeOffset ((wcharBytes str).take str.length)
      (bkvOk, h'.skip (str.length * sizeofWchar))

/-- `(-1==h->deep_offset)?-1:h->deep_value[h->deep_offset]`, a `char`. -/
def openValue (h : Bkv) : UInt8 := if h.deepOffset = -1 then 0xFF else h.deepValue h.deepOffset

def bkvKvMapOpen (env : Env) (h : Bkv) (key : UInt16) : Int × Bkv :=
  if bkvCheckState h.state (openValue h) .openMap = -1 then (bkvHdlInv, h)
  else
    let (l_ret, h') := bkvPrepare env h 32
    if l_ret = -1 then (bkvInvState, h')
    else
      let h' := { h' with mapOffset := h'.mapOffset.set (h'.deepOffset + 1) h'.writeOffset }
      let h' := (h'.emit (setKey .mapOpen key)).skip mapOpenValueSize
      (bkvOk, { h' with
        deepOffset := h'.deepOffset + 1
        deepValue := h'.deepValue.set (h'.deepOffset + 1) mapKey
        state := .inMap })

/-- The state after a container is closed, read from the stack of open containers. -/
def stateOf (h : Bkv) : State :=
  if h.deepValue h.deepOffset = mapKey then .inMap else .inArray

/-- The second byte of the close record is skipped, not stored. -/
def bkvKvMapClose (env : Env) (h : Bkv) : Int × Bkv :=
  if bkvCheckState h.state (h.deepValue h.deepOffset) .closeMap = -1 then (bkvHdlInv, h)
  else
    let (l_ret, h') := bkvPrepare env h 64
    if l_ret = -1 then (bkvInvState, h')
    else
      let h' := h'.store h'.writeOffset [(HeaderType.mapClose.code <<< (4 : UInt8)) &&& (0xFF : UInt8)]
      let h' := (h'.skip hdrSize).skip mapCloseValueSize
      let l_map_length := UInt16.ofInt (h'.writeOffset - h'.mapOffset h'.deepOffset)
      let h' := h'.store (h'.mapOffset h'.deepOffset + hdrSize) (cpuToLe16 l_map_length)
      let h' := { h' with deepOffset := h'.deepOffset - 1 }
      if h'.deepOffset = -1 then (bkvOk, { h' with state := .term })
      else (bkvOk, { h' with state := stateOf h' })

def bkvKvArrayOpen (env : Env) (h : Bkv) (key : UInt16) : Int × Bkv :=
  if bkvCheckState h.state (openValue h) .openArray = -1 then (bkvHdlInv, h)
  else
    let (l_ret, h') := bkvPrepare env h 16
    if l_ret = -1 then (bkvInvState, h')
    else
      let h' := { h' with mapOffset := h'.mapOffset.set (h'.deepOffset + 1) h'.writeOffset }
      let h' := (h'.emit (setKey .arrayOpen key)).skip arrayOpenValueSize
      (bkvOk, { h' with
        deepOffset := h'.deepOffset + 1
        deepValue := h'.deepValue.set (h'.deepOffset + 1) arrayKey
        state := .inArray })

/-- What the array adds share, `t` being the open container they look at. -/
def arrayAdd (env : Env) (h : Bkv) (t : UInt8) (size_in_bits : Nat) (hdr_type : HeaderType)
    (payload : List UInt8) : Int × Bkv :=
  if bkvCheckState h.state t .setArrayKey = -1 then (bkvHdlInv, h)
  else
    let (l_ret, h') := bkvPrepare env h size_in_bits
    if l_ret = -1 then (bkvInvState, h')
    else (bkvOk, (h'.emit (setKey hdr_type bkvArrayKey)).emit payload)

/-- `h->array_nb_elems[h->deep_offset] ++` -/
def Bkv.countElem (h : Bkv) : Bkv :=
  { h with arrayNbElems := h.arrayNbElems.set h.deepOffset (h.arrayNbElems h.deepOffset + 1) }

/-- The element is counted once it has been stored. -/
def counted (r : Int × Bkv) : Int × Bkv := if r.1 = bkvOk then (r.1, r.2.countElem) else r

/-- The one array add that leaves the element count alone. -/
def bkvKvArrayU64Add (env : Env) (h : Bkv) (v : UInt64) : Int × Bkv :=
  arrayAdd env h (h.deepValue h.deepOffset) 80 .int64 (cpuToLeU64 v)

def bkvKvArrayFloatAdd (env : Env) (h : Bkv) (f : UInt32) : Int × Bkv :=
  counted (arrayAdd env h (openValue h) 48 .float (cpuToLef f))

def bkvKvArrayBooleanAdd (env : Env) (h : Bkv) (f : Bool) : Int × Bkv :=
  counted (arrayAdd env h (openValue h) 48 .boolean [if f then 1 else 0])

def bkvKvArrayStrAdd (env : Env) (h : Bkv) (str : List UInt8) : Int × Bkv :=
  counted (arrayAdd env h (h.deepValue h.deepOffset) ((hdrSize + stringValueSize + str.length) * 8)
    .string (cpuToLe16 (.ofNat str.length) ++ str))

def bkvKvArrayU16Add (env : Env) (h : Bkv) (u : UInt16) : Int × Bkv :=
  counted (arrayAdd env h (openValue h) 32 .int16 (cpuToLe16 u))

/-- The second byte of the close record is skipped, the last three are stored. -/
def bkvKvArrayClose (env : Env) (h : Bkv) : Int × Bkv :=
  if bkvCheckState h.state (h.deepValue h.deepOffset) .closeArray = -1 then (bkvHdlInv, h)
  else
    let (l_ret, h') := bkvPrepare env h 16
    if l_ret = -1 then (bkvInvState, h')
    else
      let h' := h'.store h'.writeOffset
        [(HeaderType.arrayClose.code <<< (4 : UInt8)) &&& (0xFF : UInt8)]
      let h' := h'.skip hdrSize
      let h' := (h'.store h'.writeOffset [0xee, 0xee, 0xee]).skip arrayCloseValueSize
      let l_map_length := UInt16.ofInt (h'.writeOffset - h'.mapOffset h'.deepOffset)
      let h' := h'.store (h'.mapOffset h'.deepOffset + hdrSize + 2)
        (cpuToLe16 (.ofNat (h'.arrayNbElems h'.deepOffset)))
      let h' := h'.store (h'.mapOffset h'.deepOffset + hdrSize) (cpuToLe16 l_map_length)
      let h' := { h' with
        deepValue := h'.deepValue.set h'.deepOffset 0
        deepOffset := h'.deepOffset - 1 }
      if h'.deepOffset = -1 then (bkvOk, h')
      else (bkvOk, { h' with state := stateOf h' })

inductive Kind where
  | map | array
  deriving DecidableEq, Repr

/-- The values of the keyed adds. -/
inductive Scalar where
  | u16 (v : UInt16)
  | u32 (v : UInt32)
  | u64 (v : UInt64)
  | float (v : UInt32)
  | double (v : UInt64)
  | boolean (v : Bool)
  | str (s : List UInt8)
  | wchar (s : List UInt32)
  deriving DecidableEq, Repr

/-- The values of the array adds. -/
inductive Elem where
  | u16 (v : UInt16)
  | u64 (v : UInt64)
  | float (v : UInt32)
  | boolean (v : Bool)
  | str (s : List UInt8)
  deriving DecidableEq, Repr

/-- The adds of one scalar, to a map or to an array. -/
inductive Entry where
  | keyed (key : UInt16) (v : Scalar)
  | elem (v : Elem)
  deriving DecidableEq, Repr

/-- One call to the writer. -/
inductive Call where
  | opening (k : Kind) (key : UInt16)
  | closing (k : Kind)
  | add (e : Entry)
  deriving DecidableEq, Repr

def execAdd (env : Env) (h : Bkv) : Entry → Int × Bkv
  | .keyed key (.u16 v) => bkvKvU16Add env h key v
  | .keyed key (.u32 v) => bkvKvU32Add env h key v
  | .keyed key (.u64 v) => bkvKvU64Add env h key v
  | .keyed key (.float v) => bkvKvFloatAdd env h key v
  | .keyed key (.double v) => bkvKvDoubleAdd env h key v
  | .keyed key (.boolean v) => bkvKvBooleanAdd env h key v
  | .keyed key (.str s) => bkvKvStrAdd env h key s
  | .keyed key (.wchar s) => bkvKvWcharAdd env h key s
  | .elem (.u16 v) => bkvKvArrayU16Add env h v
  | .elem (.u64 v) => bkvKvArrayU64Add env h v
  | .elem (.float v) => bkvKvArrayFloatAdd env h v
  | .elem (.boolean v) => bkvKvArrayBooleanAdd env h v
  | .elem (.str s) => bkvKvArrayStrAdd env h s

def exec (env : Env) (h : Bkv) : Call → Int × Bkv
  | .opening .map key => bkvKvMapOpen env h key
  | .opening .array key => bkvKvArrayOpen env h key
  | .closing .map => bkvKvMapClose env h
  | .closing .array => bkvKvArrayClose env h
  | .add e => execAdd env h e

def run (env : Env) (h : Bkv) (cs : List Call) : Bkv := cs.foldl (fun h c => (exec env h c).2) h

/-- The calls of a run that return `BKV_OK`. -/
def accepted (env : Env) : Bkv → List Call → List Call
  | _, [] => []
  | h, c :: cs =>
    if (exec env h c).1 = bkvOk then c :: accepted env (exec env h c).2 cs
    else accepted env (exec env h c).2 cs

/-- A run all of whose calls return `BKV_OK`. -/
def runOk (env : Env) : Bkv → List Call → Option Bkv
  | h, [] => some h
  | h, c :: cs => if (exec env h c).1 = bkvOk then runOk env (exec env h c).2 cs else none

/-- A handle just created with `BKV_CREATE_TYPE_WORK_IN_RAM`. -/
def FreshRam (env : Env) (h : Bkv) : Prop :=
  ∃ id p, p.createType = .workInRam ∧ bkvCreate env id p = (bkvOk, some h)

def freshHandle (env : Env) (id : Nat) (mem_chunk_size : Int) : Bkv where
  fd := -1
  state := .init
  ptr := ramBuffer (env.junk id)
  memSize := bkvDefaultMemChunkSize
  writeOffset := 0
  maxSize := -1
  memChunkSize := mem_chunk_size
  deepOffset := -1
  deepValue _ := 0
  mapOffset _ := 0
  arrayNbElems _ := 0
  endHdl := none
  stores := []

theorem ram_created {env : Env} {id : Nat} {p : BkvCreate} {h : Bkv}
    (hp : p.createType = .workInRam) (hc : bkvCreate env id p = (bkvOk, some h)) :
    env.malloc bkvDefaultMemChunkSize ∧ env.mallocHandle ∧
      h = freshHandle env id p.memChunkSize := by
  simp only [bkvCreate, openBuffer, hp] at hc
  split at hc
  · cases hc
  · rename_i ho
    split at ho
    · cases ho
    · rename_i hm
      cases ho
      split at hc
      · simp [bkvHdlMem, bkvOk] at hc
      · rename_i hmh
        cases hc
        exact ⟨by simpa using hm, by simpa using hmh, rfl⟩

theorem FreshRam.eq {env : Env} {h : Bkv} (hf : FreshRam env h) :
    ∃ id chunk, h = freshHandle env id chunk := by
  obtain ⟨id, p, hp, hc⟩ := hf
  exact ⟨id, p.memChunkSize, (ram_created hp hc).2.2⟩

/-- Surroundings in which every request succeeds. -/
def calmEnv : Env where
  malloc _ := true
  mallocHandle := true
  realloc _ := true
  ftruncate _ := true
  mmap _ := true
  openFile _ := none
  creatFile _ := some 3
  junk _ _ := 0
  uninitKey := 0
  uninitRet := 0

def ramHandle : Bkv := freshHandle calmEnv 0 (-1)

theorem ramHandle_fresh : FreshRam calmEnv ramHandle :=
  ⟨0, { bkvCreateInit with createType := .workInRam }, rfl, rfl⟩

end Wtools
