import Wtools.Handle

/-!
# Reading a document

The decoding loop of `bkv_val.c` and the lookup built on it. A callback table is one
function on the invocations, `Event`, with the data of the caller as a state; a NULL entry
among the four that are tested does nothing, another one faults. Pointers are offsets
into the zone that may be read, and a read outside it faults.
-/

namespace Wtools
open ByteMemory

inductive Fault where
  | read (off : Nat)
  | nullCallback
  | keys (i : Int)
  | outOfFuel
  deriving DecidableEq, Repr

/-- One invocation of a callback with its arguments. -/
inductive Event where
  | mapOpen (p_ptr : Nat) (key : UInt16)
  | mapClose (key : UInt16)
  | arrayOpen (p_ptr : Nat) (array_len : UInt16) (key : UInt16)
  | arrayClose
  | uint16 (p_ptr : Nat) (map_deep : Int) (key : UInt16) (value : UInt16)
  | uint32 (p_ptr : Nat) (map_deep : Int) (key : UInt16) (value : UInt32)
  | uint64 (p_ptr : Nat) (map_deep : Int) (key : UInt16) (value : UInt64)
  | str (p_ptr : Nat) (key : UInt16) (value : Nat) (len : Nat)
  | float (p_ptr : Nat) (key : UInt16) (f : UInt32)
  | double (p_ptr : Nat) (key : UInt16) (f : UInt64)
  | boolean (p_ptr : Nat) (key : UInt16) (v : Bool)
  deriving DecidableEq, Repr

abbrev Callbacks (σ : Type) := Event → σ → Except Fault (UInt32 × σ)

def actionNone : UInt32 := 0
def actionGotoEndMap : UInt32 := 1
def actionStopLoop : UInt32 := 2

def readByte (z : Zone) (i : Nat) : Except Fault UInt8 :=
  match z.byte? i with
  | some b => .ok b
  | none => .error (.read i)

def read16 (z : Zone) (i : Nat) : Except Fault UInt16 := do
  let m0 ← readByte z i
  let m1 ← readByte z (i + 1)
  return le16ToCpu m0 m1

def read32 (z : Zone) (i : Nat) : Except Fault UInt32 := do
  let m0 ← readByte z i
  let m1 ← readByte z (i + 1)
  let m2 ← readByte z (i + 2)
  let m3 ← readByte z (i + 3)
  return le32ToCpu m0 m1 m2 m3

def readFloat (z : Zone) (i : Nat) : Except Fault UInt32 := do
  let m0 ← readByte z i
  let m1 ← readByte z (i + 1)
  let m2 ← readByte z (i + 2)
  let m3 ← readByte z (i + 3)
  return lefToCpu m0 m1 m2 m3

def read64With (f : UInt8 → UInt8 → UInt8 → UInt8 → UInt8 → UInt8 → UInt8 → UInt8 → UInt64)
    (z : Zone) (i : Nat) : Except Fault UInt64 := do
  let m0 ← readByte z i
  let m1 ← readByte z (i + 1)
  let m2 ← readByte z (i + 2)
  let m3 ← readByte z (i + 3)
  let m4 ← readByte z (i + 4)
  let m5 ← readByte z (i + 5)
  let m6 ← readByte z (i + 6)
  let m7 ← readByte z (i + 7)
  return f m0 m1 m2 m3 m4 m5 m6 m7

def HeaderType.ofCode (b : UInt8) : Option HeaderType :=
  [.mapOpen, .mapClose, .arrayOpen, .arrayClose, .int16, .int32, .int64, .string, .float, .double,
    .boolean].find? fun t => t.code = b

/-- What one turn of the loop leaves in `l_ret`, `l_ptr` and `l_ctx.map_deep`; `quit` is the
return on a map whose length is 0. -/
inductive Turn (σ : Type) where
  | go (l_ret : UInt32) (l_ptr : Nat) (map_deep : Int) (p_data : σ)
  | quit (p_data : σ)

variable {σ : Type}

/-- One turn of the loop of `val_foreach`. -/
def turn (z : Zone) (cb : Callbacks σ) (l_ptr : Nat) (map_deep : Int) (p_data : σ) :
    Except Fault (Turn σ) := do
  let b0 ← readByte z l_ptr
  let b1 ← readByte z (l_ptr + 1)
  let l_key := hdrKey b0 b1
  match HeaderType.ofCode (hdrNibble b0) with
  | some .mapOpen =>
    let (l_ret, s) ← cb (.mapOpen l_ptr l_key) p_data
    if l_ret &&& actionGotoEndMap ≠ 0 then
      let l_map_length ← read16 z (l_ptr + 2)
      if l_map_length = 0 then return .quit s
      return .go l_ret (l_ptr + l_map_length.toNat) map_deep s
    return .go l_ret (l_ptr + hdrSize + mapOpenValueSize) (map_deep + 1) s
  | some .mapClose =>
    let (l_ret, s) ← cb (.mapClose l_key) p_data
    return .go (if map_deep - 1 = 0 then actionStopLoop else l_ret)
      (l_ptr + hdrSize + mapCloseValueSize) (map_deep - 1) s
  | some .arrayOpen =>
    let l_array_nb_elems ← read16 z (l_ptr + hdrSize + 2)
    let (l_ret, s) ← cb (.arrayOpen l_ptr l_array_nb_elems l_key) p_data
    return .go l_ret (l_ptr + hdrSize + 2 + 2) (map_deep + 1) s
  | some .arrayClose =>
    let (l_ret, s) ← cb .arrayClose p_data
    return .go l_ret (l_ptr + hdrSize + arrayCloseValueSize) (map_deep - 1) s
  | some .int16 =>
    let l_value ← read16 z (l_ptr + hdrSize)
    let (l_ret, s) ← cb (.uint16 l_ptr map_deep l_key l_value) p_data
    return .go l_ret (l_ptr + hdrSize + 2) map_deep s
  | some .int32 =>
    let l_value32 ← read32 z (l_ptr + hdrSize)
    let (l_ret, s) ← cb (.uint32 l_ptr map_deep l_key l_value32) p_data
    return .go l_ret (l_ptr + hdrSize + 4) map_deep s
  | some .int64 =>
    let l_value64 ← read64With leU64ToCpu z (l_ptr + hdrSize)
    let (l_ret, s) ← cb (.uint64 l_ptr map_deep l_key l_value64) p_data
    return .go l_ret (l_ptr + hdrSize + 8) map_deep s
  | some .string =>
    let l_strlen ← read16 z (l_ptr + hdrSize)
    let p := l_ptr + hdrSize + 2
    let (l_ret, s) ← cb (.str p l_key p l_strlen.toNat) p_data
    return .go l_ret (p + l_strlen.toNat) map_deep s
  | some .float =>
    let l_float ← readFloat z (l_ptr + hdrSize)
    let (l_ret, s) ← cb (.float (l_ptr + hdrSize) l_key l_float) p_data
    return .go l_ret (l_ptr + hdrSize + 4) map_deep s
  | some .double =>
    let l_double ← read64With leDoubleToCpu z (l_ptr + hdrSize)
    let (l_ret, s) ← cb (.double (l_ptr + hdrSize) l_key l_double) p_data
    return .go l_ret (l_ptr + hdrSize + 8) map_deep s
  | some .boolean =>
    let b ← readByte z (l_ptr + hdrSize)
    let (l_ret, s) ← cb (.boolean (l_ptr + hdrSize) l_key (b ≠ 0)) p_data
    return .go l_ret (l_ptr + hdrSize + 1) map_deep s
  | none => return .go (-1) l_ptr map_deep p_data

/-- `((int)((long)l_ptr - (long)l_base) > 0)` -/
def beyond (l_base l_ptr : Nat) : Bool := 0 < ((l_ptr : Int) - l_base).bmod (2 ^ 32)

/-- The loop of `val_foreach`, with its return code, last `l_ptr` and data. Every turn moves
forward inside the zone, so a fuel above its size is never used up. -/
def loop (z : Zone) (cb : Callbacks σ) (l_base : Nat) :
    Nat → Nat → Int → σ → Except Fault (Int × Nat × σ)
  | 0, _, _, _ => .error .outOfFuel
  | fuel + 1, l_ptr, map_deep, p_data => do
    match ← turn z cb l_ptr map_deep p_data with
    | .quit s => return (bkvInvArg, l_ptr, s)
    | .go l_ret l_ptr' map_deep' s =>
      if l_ret &&& actionStopLoop = 0 ∧ beyond l_base l_ptr' then
        loop z cb l_base fuel l_ptr' map_deep' s
      else return (bkvOk, l_ptr', s)

inductive ValType where
  | string | int16 | int32 | int64 | number | boolean | float | object | array | endValue
  deriving DecidableEq, Repr

/-- The member of the union that was set last. -/
inductive ValU where
  | unset
  | string (str : Nat) (len : Nat)
  | b (v : Bool)
  | int16 (v : UInt16)
  | int32 (v : UInt32)
  | int64 (v : UInt64)
  | f (v : UInt32)
  | d (v : UInt64)
  | object (ptr : Nat)
  | array (len : UInt16)
  deriving DecidableEq, Repr

structure BkvVal where
  type : ValType
  key : UInt16
  u : ValU
  priv : Nat
  bkvKeyLength : Int
  deepOffset : Int
  deriving DecidableEq, Repr

def bkvValInitValue : BkvVal := ⟨.endValue, bkvKeyInvalid, .unset, 0, 0, 0⟩

def bkvValInit (z : Zone) (p_val : BkvVal) (p_ptr : Nat) : Except Fault (Int × BkvVal) := do
  let b0 ← readByte z p_ptr
  let b1 ← readByte z (p_ptr + 1)
  let v := { p_val with key := hdrKey b0 b1, priv := p_ptr }
  match HeaderType.ofCode (hdrNibble b0) with
  | some .mapOpen => return (bkvOk, { v with type := .object })
  | some .arrayOpen => return (bkvOk, { v with type := .array })
  | some .int16 =>
    return (bkvOk, { v with type := .number, u := .int16 (← read16 z (p_ptr + hdrSize)) })
  | some .int32 =>
    return (bkvOk, { v with type := .number, u := .int32 (← read32 z (p_ptr + hdrSize)) })
  | _ => return (bkvInvArg, v)

/-- `val_foreach` with the last `l_ptr`. -/
def valForeachPtr (z : Zone) (v : BkvVal) (cb : Callbacks σ) (p_data : σ) :
    Except Fault (Int × Nat × σ) := loop z cb v.priv (z.size + 1) v.priv 0 p_data

def valForeach (z : Zone) (v : BkvVal) (cb : Callbacks σ) (p_data : σ) :
    Except Fault (Int × σ) := do
  let (l_ret, _, s) ← valForeachPtr z v cb p_data
  return (l_ret, s)

def bkvValForeach (z : Zone) (p_val : BkvVal) (cb : Callbacks σ) (p_data : σ) :
    Except Fault (Int × σ) := valForeach z p_val cb p_data

/-- `bkv_val_get_ctx_t`; `val` is the array of results. -/
structure GetCtx where
  keys : Option (List UInt16)
  nbVal : Int
  val : Cells BkvVal
  valOffset : Int
  gotIt : Bool
  keyOffset : Int
  valIsSet : Bool

/-- `l_ctx->keys[i]` -/
def GetCtx.key (c : GetCtx) (i : Int) : Except Fault UInt16 :=
  match c.keys with
  | none => .error (.keys i)
  | some ks => if i < 0 then .error (.keys i) else
    match ks[i.toNat]? with
    | none => .error (.keys i)
    | some k => .ok k

/-- Whether a record has the key looked for, and if so whether that key is the last one. -/
def GetCtx.found (c : GetCtx) (key : UInt16) : Except Fault (Option Bool) := do
  if key = (← c.key c.keyOffset) then return some ((← c.key (c.keyOffset + 1)) = bkvKeyInvalid)
  else return none

def GetCtx.setVal (c : GetCtx) (f : BkvVal → BkvVal) : GetCtx :=
  { c with val := c.val.set 0 (f (c.val 0)), valIsSet := true }

def bkvValGetMapOpen (p_ptr : Nat) (key : UInt16) (c : GetCtx) :
    Except Fault (UInt32 × GetCtx) := do
  if c.keyOffset < 0 then return (actionNone, { c with keyOffset := c.keyOffset + 1 })
  let (l_ret, c) ← match ← c.found key with
    | some last => pure (actionNone, { c with gotIt := c.gotIt || last, keyOffset := c.keyOffset + 1 })
    | none => pure (actionGotoEndMap, c)
  if c.gotIt then
    return (actionStopLoop,
      c.setVal fun v => { v with type := .object, u := .object p_ptr, priv := p_ptr })
  return (l_ret, c)

/-- What the number callbacks share: elements of an array when there are no keys, else the
member looked for; `lookedUp` is what is stored besides type and value in that case. -/
def getNumber (type : ValType) (u : ValU) (lookedUp : BkvVal → BkvVal) (key : UInt16) (c : GetCtx) :
    Except Fault (UInt32 × GetCtx) := do
  if c.keys = none then
    let c' := { c with
      val := c.val.set c.valOffset { c.val c.valOffset with type := type, u := u }
      valIsSet := true
      valOffset := c.valOffset + 1 }
    return (if c.valOffset + 1 ≥ c.nbVal then actionStopLoop else actionNone, c')
  match ← c.found key with
  | some true => return (actionStopLoop, c.setVal fun v => lookedUp { v with type := type, u := u })
  | some false => return (actionStopLoop, c)
  | none => return (actionNone, c)

/-- The 4 is the length of a 16-bit record. -/
def lookedUpAt (p_ptr : Nat) (deep_offset : Int) (v : BkvVal) : BkvVal :=
  { v with priv := p_ptr, deepOffset := deep_offset, bkvKeyLength := 4 }

def bkvValGetUint16 (p_ptr : Nat) (deep_offset : Int) (key value : UInt16) :
    GetCtx → Except Fault (UInt32 × GetCtx) :=
  getNumber .int16 (.int16 value) (lookedUpAt p_ptr deep_offset) key

def bkvValGetUint32 (p_ptr : Nat) (deep_offset : Int) (key : UInt16) (value : UInt32) :
    GetCtx → Except Fault (UInt32 × GetCtx) :=
  getNumber .int32 (.int32 value) (lookedUpAt p_ptr deep_offset) key

def bkvValGetUint64 (p_ptr : Nat) (deep_offset : Int) (key : UInt16) (value : UInt64) :
    GetCtx → Except Fault (UInt32 × GetCtx) :=
  getNumber .int64 (.int64 value) (lookedUpAt p_ptr deep_offset) key

def bkvValGetFloat (key : UInt16) (value : UInt32) : GetCtx → Except Fault (UInt32 × GetCtx) :=
  getNumber .float (.f value) id key

/-- What the other lookups share: the loop goes on unless the key is the last one. -/
def getLast (set : BkvVal → BkvVal) (key : UInt16) (c : GetCtx) :
    Except Fault (UInt32 × GetCtx) := do
  match ← c.found key with
  | some true => return (actionStopLoop, c.setVal set)
  | _ => return (actionNone, c)

def bkvValGetStr (key : UInt16) (str len : Nat) : GetCtx → Except Fault (UInt32 × GetCtx) :=
  getLast (fun v => { v with type := .string, u := .string str len }) key

def bkvValGetBoolean (key : UInt16) (v : Bool) : GetCtx → Except Fault (UInt32 × GetCtx) :=
  getLast (fun w => { w with type := .boolean, u := .b v }) key

/-- The type is left at that of a string. -/
def bkvValGetDouble (key : UInt16) (d : UInt64) : GetCtx → Except Fault (UInt32 × GetCtx) :=
  getLast (fun v => { v with type := .string, u := .d d }) key

def bkvValGetArrayOpen (p_ptr : Nat) (array_len key : UInt16) (c : GetCtx) :
    Except Fault (UInt32 × GetCtx) :=
  if c.keys = none then .ok (actionNone, c)
  else getLast (fun v => { v with type := .array, u := .array array_len, priv := p_ptr }) key c

/-- `s_val_get_callbacks` -/
def valGetCallbacks : Callbacks GetCtx
  | .mapOpen p key, c => bkvValGetMapOpen p key c
  | .mapClose _, c => .ok (actionNone, c)
  | .arrayOpen p len key, c => bkvValGetArrayOpen p len key c
  | .arrayClose, c => .ok (actionNone, c)
  | .uint16 p deep key v, c => bkvValGetUint16 p deep key v c
  | .uint32 p deep key v, c => bkvValGetUint32 p deep key v c
  | .uint64 p deep key v, c => bkvValGetUint64 p deep key v c
  | .str _ key str len, c => bkvValGetStr key str len c
  | .float _ key f, c => bkvValGetFloat key f c
  | .double _ key d, c => bkvValGetDouble key d c
  | .boolean _ key v, c => bkvValGetBoolean key v c

/-- The result of the loop is not looked at. -/
def bkvValGet2 (z : Zone) (v : BkvVal) (p_keys : Option (List UInt16)) (nb_val : Int)
    (p_val : Cells BkvVal) : Except Fault (Int × Cells BkvVal) :=
  if p_keys = none ∧ v.type ≠ .array then .ok (bkvInvArg, p_val)
  else do
    let (_, c) ← valForeach z v valGetCallbacks ⟨p_keys, nb_val, p_val, 0, false, -1, false⟩
    return (if c.valIsSet then bkvOk else bkvInvArg, c.val)

end Wtools
