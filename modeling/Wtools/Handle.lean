import Wtools.Byteorder

/-!
# The bkv handle

`struct bkv_s` and the functions of `bkv.c`, `bkv_mem.c` and `bkv_file.c` that create
a handle, grow its buffer, splice documents and move the write offset. Pointers into
the buffer are offsets. The buffer is an unbounded memory: `memSize` says how much of
it is allocated, a store past it is not lost but is visible in `stores`, and growing
keeps every byte where it is. `deepValue`, `mapOffset` and `arrayNbElems` have 32
entries in the source.
-/

namespace Wtools
open ByteMemory

def bkvOk : Int := 1
def bkvKo : Int := -1
def bkvHdlInv : Int := -2
def bkvHdlMem : Int := -4
def bkvInvArg : Int := -5
def bkvInvState : Int := -6
def bkvKeyOutOfRange : Int := -5

def bkvNoKey : UInt16 := 0
def bkvArrayKey : UInt16 := 0xFFD
def bkvDicoKey : UInt16 := 0xFFE
def bkvKeyInvalid : UInt16 := 0xFFF

def bkvDefaultMemChunkSize : Int := 128

inductive State where
  | init | inMap | keySet | inArray | term
  deriving DecidableEq, Repr

inductive Action where
  | openMap | closeMap | openArray | closeArray | setArrayKey | setKey | setValue
  deriving DecidableEq, Repr

/-- The characters `{` and `[` kept in `deepValue`. -/
def mapKey : UInt8 := 123
def arrayKey : UInt8 := 91

structure File where
  bytes : Mem
  size : Nat

/-- The answers of the surroundings: which allocations and system calls succeed, what
the files hold, and the previous contents of fresh memory and of uninitialised locals. -/
structure Env where
  malloc : Int → Bool
  mallocHandle : Bool
  realloc : Int → Bool
  ftruncate : Int → Bool
  mmap : Int → Bool
  openFile : String → Option (Nat × File)
  creatFile : String → Option Nat
  junk : Nat → Mem
  uninitKey : UInt16
  uninitRet : UInt32

/-- The copy of the tail kept in `end_hdl`, as far as `bkv_append` reads it. -/
structure Tail where
  ptr : Mem
  writeOffset : Nat

structure Bkv where
  fd : Int
  state : State
  ptr : Mem
  memSize : Int
  writeOffset : Nat
  maxSize : Int
  memChunkSize : Int
  deepOffset : Int
  deepValue : Cells UInt8
  mapOffset : Cells Nat
  arrayNbElems : Cells Nat
  endHdl : Option Tail
  /-- The offsets stored to so far; not a field of the source. -/
  stores : List Nat

def Bkv.toTail (h : Bkv) : Tail := ⟨h.ptr, h.writeOffset⟩

/-- Store a run of bytes at an offset of the buffer. -/
def Bkv.store (h : Bkv) (off : Nat) (bs : List UInt8) : Bkv :=
  { h with ptr := put h.ptr off bs, stores := h.stores ++ List.range' off bs.length }

def Bkv.skip (h : Bkv) (n : Nat) : Bkv := { h with writeOffset := h.writeOffset + n }

/-- Store a run of bytes at the write offset and move past it. -/
def Bkv.emit (h : Bkv) (bs : List UInt8) : Bkv := (h.store h.writeOffset bs).skip bs.length

def bkvCheckState (s : State) (t : UInt8) (a : Action) : Int :=
  match s with
  | .init => if a = .openMap then 0 else -1
  | .inMap =>
    if (t = mapKey ∧ (a = .setKey ∨ a = .closeMap ∨ a = .openMap ∨ a = .openArray)) ∨
        (t = arrayKey ∧ (a = .openMap ∨ a = .openArray)) then 0 else -1
  | .keySet => -1
  | .inArray => if a = .openMap ∨ a = .setArrayKey ∨ a = .closeArray then 0 else -1
  | .term => -1

def bkvMemTruncate (env : Env) (new_size : Int) : Int :=
  if env.realloc new_size then bkvOk else bkvHdlMem

/-- With `__USE_XOPEN_EXTENDED`: the result of `ftruncate` is left in `l_ret` when `mmap` fails. -/
def bkvFileCreateAndMmap (env : Env) (new_size : Int) : Int :=
  if !env.ftruncate new_size then -1
  else if !env.mmap new_size then 0
  else bkvOk

def bkvFileTruncate (env : Env) (fd size : Int) : Int :=
  if fd ≠ -1 ∧ env.ftruncate size then bkvOk else bkvKo

inductive BkvCreateType where
  | workInRam | openFileCreatAndWrite | openFileUpdate | openFileReadOnly
  | safeInputBuffer | unsafeInputBuffer | endValue
  deriving DecidableEq, Repr

structure BkvCreate where
  createType : BkvCreateType
  filename : String
  inputPtr : Mem
  inputPtrLength : Nat
  mode : Int
  memChunkSize : Int

def bkvCreateInit : BkvCreate := ⟨.endValue, "", fun _ => 0, 0, 0, -1⟩

/-- The locals `l_fd`, `l_size`, `l_ptr`, `l_state` and `l_default_write_offset` of `bkv_create`. -/
structure Opened where
  fd : Int
  size : Int
  ptr : Mem
  state : State
  writeOffset : Nat

def bkvOpenFileCreateWrite (env : Env) (file : String) (mode : Int) : Int × Option Opened :=
  if mode = 0 then (bkvInvArg, none)
  else match env.creatFile file with
    | none => (bkvInvArg, none)
    | some fd => (bkvOk, some ⟨fd, 0, fun _ => 0, .init, 0⟩)

def bkvOpenFileUpdate (env : Env) (file : String) : Int × Option Opened :=
  match env.openFile file with
  | none => (bkvInvArg, none)
  | some (fd, f) =>
    if !env.mmap f.size then (0, none) else (bkvOk, some ⟨fd, f.size, f.bytes, .term, 0⟩)

def bkvOpenFileReadonly (env : Env) (file : String) : Int × Option Opened :=
  match env.openFile file with
  | none => (bkvInvArg, none)
  | some (fd, f) =>
    if !env.mmap f.size then (bkvInvArg, none) else (bkvOk, some ⟨fd, f.size, f.bytes, .term, 0⟩)

/-- The buffer of a new handle in RAM: `memset` clears the first chunk only. -/
def ramBuffer (junk : Mem) : Mem := fun i => if i < 128 then 0 else junk i

def openBuffer (env : Env) (id : Nat) (p : BkvCreate) : Int × Option Opened :=
  match p.createType with
  | .openFileCreatAndWrite => bkvOpenFileCreateWrite env p.filename p.mode
  | .openFileUpdate => bkvOpenFileUpdate env p.filename
  | .openFileReadOnly => bkvOpenFileReadonly env p.filename
  | .workInRam =>
    if !env.malloc bkvDefaultMemChunkSize then (bkvHdlMem, none)
    else (bkvOk, some ⟨-1, bkvDefaultMemChunkSize, ramBuffer (env.junk id), .init, 0⟩)
  | .safeInputBuffer => (bkvOk, some ⟨-1, -1, p.inputPtr, .init, 0⟩)
  | .unsafeInputBuffer =>
    -- a failed allocation leaves the result at BKV_OK and the buffer at NULL
    if !env.malloc p.inputPtrLength then (bkvOk, some ⟨-1, -1, env.junk id, .init, 0⟩)
    else (bkvOk, some ⟨-1, p.inputPtrLength,
      fun i => if i < p.inputPtrLength then p.inputPtr i else env.junk id i, .init,
      p.inputPtrLength⟩)
  | .endValue => (bkvInvArg, none)

/-- `id` numbers the handles of a program, which get different fresh memory. -/
def bkvCreate (env : Env) (id : Nat) (p : BkvCreate) : Int × Option Bkv :=
  match openBuffer env id p with
  | (l_ret, none) => (l_ret, none)
  | (l_ret, some o) =>
    if !env.mallocHandle then (bkvHdlMem, none)
    else (l_ret, some {
      fd := o.fd, state := o.state, ptr := o.ptr, memSize := o.size, writeOffset := o.writeOffset,
      maxSize := -1, memChunkSize := p.memChunkSize, deepOffset := -1, deepValue := fun _ => 0,
      mapOffset := fun _ => 0, arrayNbElems := fun _ => 0, endHdl := none, stores := [] })

def bkvSize (h : Bkv) : Nat := h.writeOffset

def bkvKvClosed (h : Bkv) : Bool := h.state = .term

/-- The zone given by `bkv_get_head`: offset 0 of the buffer and the write offset. -/
def bkvGetHead (h : Bkv) : Zone := ⟨h.ptr, h.writeOffset⟩

/-- Grow by at most one chunk. The result is `BKV_INV_ARG` when nothing has to be done. -/
def bkvPrepare (env : Env) (h : Bkv) (size_in_bits : Nat) : Int × Bkv :=
  if h.memSize < (h.writeOffset + size_in_bits / 8 : Nat) then
    let l_append_size := if h.memChunkSize = -1 then bkvDefaultMemChunkSize else h.memChunkSize
    let l_new_size := (h.memSize.tdiv l_append_size + 1) * l_append_size
    let l_ret :=
      if h.maxSize ≠ -1 ∧ l_new_size > h.maxSize then bkvInvArg
      else if h.fd ≠ -1 then bkvFileCreateAndMmap env l_new_size
      else bkvMemTruncate env l_new_size
    if l_ret = bkvOk then (l_ret, { h with memSize := l_new_size }) else (l_ret, h)
  else (bkvInvArg, h)

def bkvAppend (env : Env) (h : Bkv) (a : Tail) : Int × Bkv :=
  let l_size : Int := h.writeOffset + a.writeOffset
  let copy (h : Bkv) : Bkv := h.emit (slice a.ptr 0 a.writeOffset)
  if l_size > h.memSize then
    let l_size := (l_size * bkvDefaultMemChunkSize).tdiv bkvDefaultMemChunkSize
    if h.fd ≠ -1 then
      if bkvFileTruncate env h.fd l_size ≠ bkvOk then (bkvHdlInv, h)
      else (bkvOk, copy { h with memSize := l_size })
    else if !env.realloc l_size then (bkvHdlMem, h)
    else (bkvOk, copy { h with memSize := l_size })
  else (bkvOk, copy h)

/-- In RAM the handle is freed. -/
def bkvFinalize (env : Env) (h : Bkv) : Int × Option Bkv :=
  let h := match h.endHdl with
    | none => h
    | some e => (bkvAppend env h e).2
  if h.fd ≠ -1 then (bkvFileTruncate env h.fd h.memSize, some h) else (0, none)

def bkvIsInertionModeActive (h : Bkv) : Bool := h.endHdl.isSome

end Wtools
