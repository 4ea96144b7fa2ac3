import Wtools.Writer
import Wtools.Keytree

/-!
# Dictionaries

`bkv_dico.c` with its two plugs. The direct dictionary is a document that takes a string
for each name given; the cached one is a key tree, turned into a document when it is
destroyed. The handles of the documents are made with the allocator number given.
-/

namespace Wtools

/-- `bkv_dico_type_t` -/
inductive DicoType where
  | direct | cached | endValue
  deriving DecidableEq, Repr

/-- `dico_ctx_t`: the plug with its private data. The allocator of the key tree goes with it. -/
inductive Dico where
  | direct (handle : Bkv)
  | cached (head : KeytreeHead) (heap : Heap)

def dicoDirectCreate (env : Env) (id : Nat) : Int × Option Dico :=
  match bkvCreate env id { bkvCreateInit with createType := .workInRam } with
  | (_, none) => (bkvInvArg, none)
  | (l_ret, some l_bkv) =>
    if l_ret ≠ bkvOk then (bkvInvArg, none)
    else
      let (l_ret, l_bkv) := bkvKvMapOpen env l_bkv bkvDicoKey
      if l_ret ≠ bkvOk then (bkvInvArg, none)
      else if !env.mallocHandle then (bkvInvArg, none)
      else (bkvOk, some (.direct l_bkv))

/-- A key tree that could not be allocated leaves `l_head` uninitialised under a success code. -/
def dicoCachedCreate (env : Env) (heap : Heap) : Except KeyFault (Int × Option Dico) := do
  let (l_error, l_head, heap) ← wgKeytreeCreate 0 false [] heap
  if l_error ≠ wNoError then return (bkvInvArg, none)
  else if !env.mallocHandle then return (bkvInvArg, none)
  else match l_head with
    | none => throw .uninitialised
    | some l_head => return (bkvOk, some (.cached l_head heap))

/-- When the context cannot be allocated the result of the plug is returned without a handle. -/
def bkvDicoCreate (env : Env) (id : Nat) (heap : Heap) (type : DicoType) :
    Except KeyFault (Int × Option Dico) := do
  let (l_ret, l_dico) ← match type with
    | .direct => pure (dicoDirectCreate env id)
    | .cached => dicoCachedCreate env heap
    | .endValue => pure (bkvInvArg, none)
  if l_ret ≠ bkvOk then return (l_ret, none)
  else if !env.mallocHandle then return (l_ret, none)
  else return (bkvOk, l_dico)

/-- The result and `*p_final_key`, which starts at `BKV_NO_KEY`. -/
def dicoDirectKeyAdd (env : Env) (handle : Bkv) (key : UInt16) (keystr : List UInt8) :
    Int × UInt16 × Bkv :=
  let (l_error, handle) := bkvKvStrAdd env handle key keystr
  (l_error, bkvNoKey, handle)

/-- The name is taken to have no NUL, at which `strdup` would cut the copy short. -/
def dicoCachedKeyAdd (head : KeytreeHead) (heap : Heap) (key : UInt16) (keystr : List UInt8) :
    Except KeyFault (Int × UInt16 × KeytreeHead × Heap) := do
  let r ← wgKeytreeAdd head keystr key.toUInt64 heap
  let final_key := if r.error = wEExists then (r.udata.getD 0).toUInt16 else bkvNoKey
  return (bkvOk, final_key, r.head, r.heap)

def bkvDicoKeyAdd (env : Env) (dico : Option Dico) (key_index : UInt16) (keystr : List UInt8) :
    Except KeyFault (Int × UInt16 × Option Dico) := do
  match dico with
  | none => throw .nullKey
  | some (.direct handle) =>
    let (l_ret, p_final_key, handle) := dicoDirectKeyAdd env handle key_index keystr
    return (l_ret, p_final_key, some (.direct handle))
  | some (.cached head heap) =>
    let (l_ret, p_final_key, head, heap) ← dicoCachedKeyAdd head heap key_index keystr
    return (l_ret, p_final_key, some (.cached head heap))

/-- The callback of `wg_keytree_foreach`: the keys that end a word go into the document. -/
def dicoCachedElem (env : Env) (p_key : Key) (p_str : List UInt8) (dico : Bkv) : Bkv :=
  match p_key with
  | .key true udata .. => (bkvKvStrAdd env dico udata.toUInt16 p_str).2
  | _ => dico

def dicoDirectDestroy (env : Env) (handle : Bkv) : Int × Option Bkv :=
  let (l_ret, handle) := bkvKvMapClose env handle
  if l_ret ≠ bkvOk then (l_ret, none) else (bkvOk, some handle)

def dicoCachedDestroy (env : Env) (id : Nat) (head : KeytreeHead) :
    Except KeyFault (Int × Option Bkv) := do
  match bkvCreate env id { bkvCreateInit with createType := .workInRam } with
  | (l_ret, none) => return (l_ret, none)
  | (l_ret, some dico) =>
    if l_ret ≠ bkvOk then return (l_ret, none)
    let (l_ret, dico) := bkvKvMapOpen env dico bkvDicoKey
    if l_ret ≠ bkvOk then return (l_ret, none)
    let dico ← wgKeytreeForeach head (dicoCachedElem env) dico
    let (l_ret, dico) := bkvKvMapClose env dico
    if l_ret ≠ bkvOk then return (l_ret, none)
    let _ ← wgKeyRelease head.top
    return (l_ret, some dico)

def bkvDicoDestroy (env : Env) (id : Nat) : Dico → Except KeyFault (Int × Option Bkv)
  | .direct handle => .ok (dicoDirectDestroy env handle)
  | .cached head _ => dicoCachedDestroy env id head

end Wtools
