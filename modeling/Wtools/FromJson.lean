import Wtools.Dico

/-!
# From JSON to BKV

`bkv_from_json` and the parser callbacks of `bkv_json_yajl.c`. The parser is taken as
documented: it delivers the callbacks of the text in order, and goes on as long as they
return something else than 0. The floating point operations of `get_number` are a
parameter, the value they give for the text of a number.
-/

namespace Wtools

/-- One callback of the parser; `null` has no function in the table. -/
inductive JsonEvent where
  | null
  | boolean (boolVal : Bool)
  | number (numberVal : List UInt8)
  | string (stringVal : List UInt8)
  | startMap
  | mapKey (key : List UInt8)
  | endMap
  | startArray
  | endArray
  deriving DecidableEq, Repr

/-- `bkv_from_json_ctx_t` with its `priv_data`, `bkv_from_json_yajl_ctx_t`. -/
structure FromJsonCtx where
  dataHandle : Bkv
  dicoHandle : Option Dico
  deep : Int
  inArray : Bool
  keyIndex : UInt16
  existingKeyIndex : UInt16

/-- `bkv_json_decimal_type_t` with the value that goes with it. -/
inductive Decimal where
  | u16 (v : UInt16)
  | u32 (v : UInt32)
  | u64 (v : UInt64)
  | float (v : UInt32)
  | double
  deriving DecidableEq, Repr

/-- One digit of `l_u64`; the first one is not preceded by a multiplication. -/
def accumulate (l_offset : Nat) (l_u64 : UInt64) (c : UInt8) : UInt64 :=
  (if 0 < l_offset then l_u64 * 10 else l_u64) + (c.toUInt64 - 0x30)

/-- The integer loop of `get_number`, up to a point if there is one. -/
def integerPart : Nat → UInt64 → List UInt8 → UInt64
  | _, l_u64, [] => l_u64
  | l_offset, l_u64, c :: cs =>
    if c = 0x2E then l_u64 else integerPart (l_offset + 1) (accumulate l_offset l_u64 c) cs

def getNumberJson (float : List UInt8 → UInt32) (numberVal : List UInt8) : Decimal :=
  if 0x2E ∈ numberVal then
    if numberVal.length < 8 then .float (float numberVal) else .double
  else
    let l_u64 := integerPart 0 0 numberVal
    if l_u64 < 0x10000 then .u16 l_u64.toUInt16
    else if l_u64 < 0x100000000 then .u32 l_u64.toUInt32
    else .u64 l_u64

/-- `(existing_key_index!=BKV_NO_KEY)?existing_key_index:key_index` -/
def FromJsonCtx.index (c : FromJsonCtx) : UInt16 :=
  if c.existingKeyIndex ≠ bkvNoKey then c.existingKeyIndex else c.keyIndex

/-- A call to the writer on the data handle, with its result. -/
def FromJsonCtx.write (env : Env) (c : FromJsonCtx) (call : Call) : Int × FromJsonCtx :=
  let (l_ret, h) := exec env c.dataHandle call
  (l_ret, { c with dataHandle := h })

def bkvJsonGetBoolean (env : Env) (boolVal : Bool) (c : FromJsonCtx) : Int × FromJsonCtx :=
  if c.inArray then c.write env (.add (.elem (.boolean boolVal)))
  else c.write env (.add (.keyed c.index (.boolean boolVal)))

/-- A number that cannot be written is dropped. -/
def bkvJsonGetNumber (env : Env) (float : List UInt8 → UInt32) (numberVal : List UInt8)
    (c : FromJsonCtx) : Int × FromJsonCtx :=
  if c.inArray then
    match getNumberJson float numberVal with
    | .u16 v => (1, (c.write env (.add (.elem (.u16 v)))).2)
    | .float v => (1, (c.write env (.add (.elem (.float v)))).2)
    | _ => (1, c)
  else
    match getNumberJson float numberVal with
    | .u16 v => (1, (c.write env (.add (.keyed c.index (.u16 v)))).2)
    | .u32 v => (1, (c.write env (.add (.keyed c.index (.u32 v)))).2)
    | .float v => (1, (c.write env (.add (.keyed c.index (.float v)))).2)
    | _ => (1, c)

def bkvJsonGetString (env : Env) (stringVal : List UInt8) (c : FromJsonCtx) : Int × FromJsonCtx :=
  if c.inArray then (1, (c.write env (.add (.elem (.str stringVal)))).2)
  else (1, (c.write env (.add (.keyed c.index (.str stringVal)))).2)

/-- Any result but -1 counts as an opened map. -/
def bkvJsonStartMap (env : Env) (c : FromJsonCtx) : Int × FromJsonCtx :=
  let l_index := if 0 < c.deep then c.index else bkvNoKey
  let (l_ret, c) := c.write env (.opening .map l_index)
  if l_ret ≠ -1 then (1, { c with deep := c.deep + 1 }) else (l_ret, c)

/-- The outermost map is left open for the dictionary, with a result of -1. -/
def bkvJsonEndMap (env : Env) (c : FromJsonCtx) : Int × FromJsonCtx :=
  let c := { c with deep := c.deep - 1 }
  if 0 < c.deep ∨ c.dicoHandle.isNone then
    let (l_ret, c) := c.write env (.closing .map)
    if l_ret = -1 then (l_ret, c) else (1, c)
  else (-1, c)

def bkvJsonStartArray (env : Env) (c : FromJsonCtx) : Int × FromJsonCtx :=
  let l_index := if 0 < c.deep then c.index else bkvNoKey
  let (l_ret, c) := c.write env (.opening .array l_index)
  if l_ret ≠ -1 then (1, { c with inArray := true, deep := c.deep + 1 }) else (l_ret, c)

def bkvJsonEndArray (env : Env) (c : FromJsonCtx) : Int × FromJsonCtx :=
  let c := { c with deep := c.deep - 1 }
  if 0 < c.deep then
    let (l_ret, c) := c.write env (.closing .array)
    if l_ret = -1 then (l_ret, c) else (1, { c with inArray := false })
  else (-1, c)

def bkvJsonMapKeys (env : Env) (key : List UInt8) (c : FromJsonCtx) :
    Except KeyFault (Int × FromJsonCtx) := do
  let c := { c with keyIndex := c.keyIndex + 1 }
  let (l_ret, l_returned_index, dico) ← bkvDicoKeyAdd env c.dicoHandle c.keyIndex key
  let c := { c with dicoHandle := dico }
  if l_ret ≠ bkvOk then return (l_ret, c)
  return (l_ret, { c with existingKeyIndex := l_returned_index, inArray := false })

/-- The table of callbacks. -/
def jsonCallback (env : Env) (float : List UInt8 → UInt32) (e : JsonEvent) (c : FromJsonCtx) :
    Except KeyFault (Int × FromJsonCtx) :=
  match e with
  | .null => .ok (1, c)
  | .boolean boolVal => .ok (bkvJsonGetBoolean env boolVal c)
  | .number numberVal => .ok (bkvJsonGetNumber env float numberVal c)
  | .string stringVal => .ok (bkvJsonGetString env stringVal c)
  | .startMap => .ok (bkvJsonStartMap env c)
  | .mapKey key => bkvJsonMapKeys env key c
  | .endMap => .ok (bkvJsonEndMap env c)
  | .startArray => .ok (bkvJsonStartArray env c)
  | .endArray => .ok (bkvJsonEndArray env c)

/-- `yajl_parse`: whether the status is `yajl_status_ok`. -/
def yajlParse (env : Env) (float : List UInt8 → UInt32) :
    List JsonEvent → FromJsonCtx → Except KeyFault (Bool × FromJsonCtx)
  | [], c => .ok (true, c)
  | e :: es, c => do
    let (l_ret, c) ← jsonCallback env float e c
    if l_ret = 0 then return (false, c)
    yajlParse env float es c

def bkvFromJsonYajlParse (env : Env) (float : List UInt8 → UInt32) (text : List JsonEvent)
    (c : FromJsonCtx) : Except KeyFault (Int × FromJsonCtx) := do
  let c := { c with keyIndex := 1, existingKeyIndex := env.uninitKey }
  let (ok, c) ← yajlParse env float text c
  return (if ok then bkvOk else bkvInvArg, c)

/-- The data handle is numbered 0, the document of the dictionary 1. `*h` is set whenever the
parser has returned `BKV_OK`. -/
def bkvFromJson (env : Env) (heap : Heap) (float : List UInt8 → UInt32) (dico_type : DicoType)
    (text : List JsonEvent) : Except KeyFault (Int × Option Bkv) := do
  match bkvCreate env 0 { bkvCreateInit with createType := .workInRam } with
  | (l_error, none) => return (l_error, none)
  | (l_error, some data) =>
    if l_error ≠ bkvOk then return (l_error, none)
    let (l_error, dico) ← bkvDicoCreate env 1 heap dico_type
    if l_error ≠ bkvOk then return (l_error, none)
    let (l_error, c) ← bkvFromJsonYajlParse env float text ⟨data, dico, 0, false, 0, 0⟩
    if l_error ≠ bkvOk then return (l_error, none)
    match c.dicoHandle with
    | none => return (l_error, some c.dataHandle)
    | some dico =>
      let (l_error, l_bkv_dico_handle) ← bkvDicoDestroy env 1 dico
      match l_bkv_dico_handle with
      | none => return (l_error, some c.dataHandle)
      | some a =>
        let (l_error, h) := bkvAppend env c.dataHandle a.toTail
        if l_error ≠ bkvOk then return (l_error, some h)
        let (l_error, h) := bkvKvMapClose env h
        return (l_error, some h)

end Wtools
