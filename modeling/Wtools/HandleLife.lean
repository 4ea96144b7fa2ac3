import Wtools.Insertion
import Wtools.Library.Ownership

/-!
# The life of a handle

What a handle takes from the system, and what `bkv_finalize` and `bkv_destroy` give back. Beside the
handle itself stand the addresses of what it was given and how far its buffer or mapping reaches. An
access to memory that was freed or never given, one through NULL, a store to a mapping that can only
be read, one behind the 32 entries of the nesting stack and a second `free` give `none`; 0 is the
NULL pointer and `MAP_FAILED`.
-/

namespace Wtools.Life

open ByteMemory Ownership

inductive Resource where
  | block (a : Nat)
  | mapping (a : Nat)
  | file (fd : Int)
  deriving DecidableEq, Repr

abbrev Process := Store Resource

def malloc (ok : Bool) : Proc Resource Nat := if ok then acquire .block else pure 0

def free (a : Nat) : Proc Resource Unit := release (.block a)

/-- The block moves. -/
def realloc (a : Nat) : Proc Resource Nat :=
  if a = 0 then malloc true
  else do
    free a
    malloc true

def mmap (ok : Bool) : Proc Resource Nat := if ok then acquire .mapping else pure 0

/-- An error is only logged. -/
def munmap (a : Nat) : Proc Resource Unit := if a = 0 then pure () else discard (.mapping a)

/-- An error is only logged. -/
def close (fd : Int) : Proc Resource Unit := discard (.file fd)

/-- A field of a handle is read. -/
def touch (a : Nat) : Proc Resource Unit := need (.block a)

/-- A handle with the addresses of `struct bkv_s`, of its buffer or mapping, and of those of
`end_hdl`. At `ptr` there are `room` bytes, which is not always what `mem_size` says. -/
structure Handle where
  self : Nat
  ptr : Nat
  room : Int
  writable : Bool
  endHdl : Option (Nat × Nat)
  bkv : Bkv

namespace Handle

/-- What lies at `ptr`. -/
def place (hd : Handle) : Resource := if hd.bkv.fd = -1 then .block hd.ptr else .mapping hd.ptr

/-- The bytes at these offsets can be read. -/
def Reads (hd : Handle) (offs : List Nat) : Prop :=
  ∀ i ∈ offs, hd.ptr ≠ 0 ∧ (i : Int) < hd.room

/-- They can be stored to. -/
def Stores (hd : Handle) (offs : List Nat) : Prop :=
  ∀ i ∈ offs, (hd.ptr ≠ 0 ∧ (i : Int) < hd.room) ∧ hd.writable

instance (hd : Handle) (offs : List Nat) : Decidable (hd.Reads offs) :=
  inferInstanceAs (Decidable (∀ i ∈ offs, _))

instance (hd : Handle) (offs : List Nat) : Decidable (hd.Stores offs) :=
  inferInstanceAs (Decidable (∀ i ∈ offs, _))

/-- A mapping that was made with `PROT_WRITE` alone is read as well. -/
def read (hd : Handle) (offs : List Nat) : Proc Resource Unit :=
  if offs = [] then pure ()
  else if hd.Reads offs then need hd.place
  else failure

def store (hd : Handle) (offs : List Nat) : Proc Resource Unit :=
  if hd.Stores offs then hd.read offs else failure

end Handle

/-- `bkv_open_file_update` closes a file that cannot be mapped. `bkv_open_file_readonly` compares
its result with -1, which it never is then. -/
def closeUnmapped (closes : Bool) (ptr : Nat) (fd : Int) : Proc Resource Unit :=
  if closes ∧ ptr = 0 then close fd else pure ()

def openMapped (env : Env) (file : String) (closes : Bool) : Proc Resource Nat :=
  match env.openFile file with
  | none => pure 0
  | some (fd, f) => do
    receive (.file fd)
    let ptr ← mmap (env.mmap f.size)
    closeUnmapped closes ptr fd
    return ptr

/-- With the mode 0 nothing is opened, but what lies in `l_fd` is closed. -/
def openCreated (env : Env) (file : String) (mode l_fd : Int) : Proc Resource Nat :=
  if mode = 0 then do
    closeUnmapped (l_fd ≠ -1) 0 l_fd
    return 0
  else match env.creatFile file with
    | none => pure 0
    | some fd => do
      receive (.file fd)
      return 0

/-- The buffer of a new handle; `input_ptr` is where the caller's buffer lies and `l_fd` what lies
in the uninitialised local of `bkv_open_file_create_write`. -/
def bufferOf (env : Env) (p : BkvCreate) (input_ptr : Nat) (l_fd : Int) : Proc Resource Nat :=
  match p.createType with
  | .workInRam => malloc (env.malloc bkvDefaultMemChunkSize)
  | .openFileCreatAndWrite => openCreated env p.filename p.mode l_fd
  | .openFileUpdate => openMapped env p.filename true
  | .openFileReadOnly => openMapped env p.filename false
  | .safeInputBuffer => pure input_ptr
  | .unsafeInputBuffer => malloc (env.malloc p.inputPtrLength)
  | .endValue => pure 0

/-- The handle itself, when there is a buffer for it. -/
def handleOf (env : Env) (id : Nat) (p : BkvCreate) (ptr : Nat) : Proc Resource (Option Handle) :=
  if (openBuffer env id p).2.isSome then do
    let self ← malloc env.mallocHandle
    return (bkvCreate env id p).2.map fun h =>
      ⟨self, ptr, h.memSize, p.createType ≠ .openFileReadOnly, none, h⟩
  else pure none

/-- `bkv_create`. -/
def create (env : Env) (id : Nat) (p : BkvCreate) (input_ptr : Nat) (l_fd : Int) :
    Proc Resource (Int × Option Handle) := do
  let ptr ← bufferOf env p input_ptr l_fd
  let hd ← handleOf env id p ptr
  return ((bkvCreate env id p).1, hd)

/-- `bkv_prepare`, and `bkv_append` in RAM: when `mem_size` changes the block moves, or the file is
mapped anew. -/
def regrow (hd : Handle) (h : Bkv) : Proc Resource Handle :=
  if h.memSize = hd.bkv.memSize then pure { hd with bkv := h }
  else if hd.bkv.fd = -1 then do
    let ptr ← realloc hd.ptr
    return { hd with bkv := h, ptr := ptr, room := h.memSize, writable := true }
  else do
    let ptr ← mmap true
    return { hd with bkv := h, ptr := ptr, room := h.memSize, writable := true }

/-- Where it was stored on the way from `h` to `h'`. -/
def newStores (h h' : Bkv) : List Nat := h'.stores.drop h.stores.length

/-- `deep_value`, `map_offset` and `array_nb_elems` have entries for so many open containers. -/
def Nested (h : Bkv) : Prop := h.deepOffset < 32

instance (h : Bkv) : Decidable (Nested h) := inferInstanceAs (Decidable (_ < _))

/-- The handle goes on as `h`. The buffer has grown, or has not, when the bytes are stored. -/
def advance (hd : Handle) (h : Bkv) : Proc Resource Handle := do
  touch hd.self
  if Nested h then do
    let hd' ← regrow hd h
    hd'.store (newStores hd.bkv h)
    return hd'
  else failure

/-- A call of the writer. -/
def write (env : Env) (hd : Handle) (c : Call) : Proc Resource Handle :=
  advance hd (exec env hd.bkv c).2

/-- The handle in `bkv_append` when the bytes are copied. A file gets longer, but its mapping does
not. -/
def stretch (hd : Handle) (h : Bkv) : Proc Resource Handle :=
  if hd.bkv.fd = -1 then regrow hd h else pure { hd with bkv := h }

/-- `bkv_append`. The handle at `src` is read; `bytes` reads what is copied from it, which may have
moved when a handle is appended to itself. -/
def append (env : Env) (hd : Handle) (src : Nat) (bytes : Handle → Proc Resource Unit) (a : Tail) :
    Proc Resource Handle := do
  touch hd.self
  touch src
  if (bkvAppend env hd.bkv a).1 ≠ bkvOk then return hd
  let hd' ← stretch hd (bkvAppend env hd.bkv a).2
  bytes hd'
  hd'.store (List.range' hd.bkv.writeOffset a.writeOffset)
  return hd'

/-- The copy that `bkv_write_offset_set` puts aside. -/
def copyOf (h : Bkv) (l_offset : Int) : BkvCreate :=
  { bkvCreateInit with
    createType := .unsafeInputBuffer
    inputPtr := fun i => h.ptr (l_offset.toNat + i)
    inputPtrLength := (h.memSize - l_offset).toNat }

/-- Where `bkv_write_offset_set` moves the write offset to. -/
def offsetOf (p_val : BkvVal) : Int := p_val.priv + p_val.bkvKeyLength

/-- `bkv_write_offset_set` goes on to put a copy aside. -/
def Copies (h : Bkv) (p_val : BkvVal) : Prop :=
  h.endHdl.isNone ∧ 0 ≤ offsetOf p_val ∧ offsetOf p_val ≤ h.memSize

instance (h : Bkv) (p_val : BkvVal) : Decidable (Copies h p_val) :=
  inferInstanceAs (Decidable (_ ∧ _ ∧ _))

/-- What is copied for it when there is memory. -/
def copiedBy (env : Env) (h : Bkv) (p_val : BkvVal) : List Nat :=
  let p := copyOf h (offsetOf p_val)
  if env.malloc p.inputPtrLength then List.range' (offsetOf p_val).toNat p.inputPtrLength else []

/-- It stores the depth of the caller's value in `deep_value`. -/
def Placed (env : Env) (id : Nat) (h : Bkv) (p_val : BkvVal) : Prop :=
  (bkvWriteOffsetSet env id h p_val).1 = bkvOk → 0 ≤ p_val.deepOffset ∧ p_val.deepOffset < 32

instance (env : Env) (id : Nat) (h : Bkv) (p_val : BkvVal) : Decidable (Placed env id h p_val) :=
  inferInstanceAs (Decidable (_ → _ ∧ _))

/-- `bkv_write_offset_set`. -/
def setWriteOffset (env : Env) (id : Nat) (hd : Handle) (p_val : BkvVal) :
    Proc Resource Handle := do
  touch hd.self
  let h := (bkvWriteOffsetSet env id hd.bkv p_val).2.1
  if Copies hd.bkv p_val then do
    hd.read (copiedBy env hd.bkv p_val)
    let r ← create env id (copyOf hd.bkv (offsetOf p_val)) 0 (-1)
    if Placed env id hd.bkv p_val then
      return { hd with bkv := h, endHdl := r.2.map fun e => (e.self, e.ptr) }
    else failure
  else return { hd with bkv := h }

/-- The copy in `end_hdl` is as long as its handle says. -/
def readCopy (ptr : Nat) (a : Tail) : Proc Resource Unit :=
  if a.writeOffset = 0 then pure () else touch ptr

/-- `bkv_finalize` appends `end_hdl` when there is one. -/
def appendEnd (env : Env) (hd : Handle) : Proc Resource Handle :=
  match hd.endHdl, hd.bkv.endHdl with
  | some e, some a => append env hd e.1 (fun _ => readCopy e.2 a) a
  | _, _ => pure hd

/-- The buffer and the handle are freed, when there is a buffer. -/
def releaseRam (hd : Handle) : Proc Resource (Option Handle) :=
  if hd.ptr = 0 then pure (some hd)
  else do
    free hd.ptr
    free hd.self
    return none

/-- `bkv_finalize`. -/
def finalize (env : Env) (hd : Handle) : Proc Resource (Int × Option Handle) := do
  touch hd.self
  let hd' ← appendEnd env hd
  if hd'.bkv.fd = -1 then do
    let left ← releaseRam hd'
    return (0, left)
  else return (bkvFileTruncate env hd'.bkv.fd hd'.bkv.memSize, some hd')

/-- `bkv_file_close`. -/
def fileClose (fd : Int) (ptr : Nat) : Proc Resource Int := do
  munmap ptr
  close fd
  return 0

/-- `bkv_destroy`; the handle on a file is not freed. -/
def destroy (hd : Handle) : Proc Resource (Int × Option Handle) := do
  touch hd.self
  if hd.bkv.fd = -1 then do
    let left ← releaseRam hd
    return (0, left)
  else do
    let l_ret ← fileClose hd.bkv.fd hd.ptr
    return (l_ret, none)

end Wtools.Life
