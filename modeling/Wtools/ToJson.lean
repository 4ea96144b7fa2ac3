import Wtools.Val

/-!
# From BKV to JSON

`bkv_to_json` with the generator functions of `bkv_json_yajl.c`. The generator is known by
the calls made to it: `accept` tells from the tokens it has taken whether it takes one
more. It is taken to be allocated and to give its buffer back.
-/

namespace Wtools
open ByteMemory

/-- A call to the generator. -/
inductive GenCall where
  | mapOpen | mapClose | arrayOpen | arrayClose
  | string (str : List UInt8)
  | boolean (v : Bool)
  | integer (v : Int)
  | double (f : UInt32)
  deriving DecidableEq, Repr

/-- The calls made to the generator, and those it took. -/
structure Gen where
  made : List GenCall
  taken : List GenCall
  deriving DecidableEq, Repr

abbrev Accept := List GenCall → GenCall → Bool

/-- One call: whether the status is `yajl_gen_status_ok`. -/
def Gen.call (accept : Accept) (c : GenCall) (g : Gen) : Bool × Gen :=
  if accept g.taken c then (true, ⟨g.made ++ [c], g.taken ++ [c]⟩)
  else (false, { g with made := g.made ++ [c] })

/-- Calls made one after the other as long as they are taken. -/
def Gen.calls (accept : Accept) : List GenCall → Gen → Bool × Gen
  | [], g => (true, g)
  | c :: cs, g =>
    let (ok, g) := g.call accept c
    if ok then Gen.calls accept cs g else (false, g)

/-- `BKV_OK`, or the error of the function. -/
def okOr (error : Int) (r : Bool × Gen) : Int × Gen := (if r.1 then bkvOk else error, r.2)

/-- The result of writing the name is not looked at. -/
def bkvToJsonYajlMapOpen (accept : Accept) (key : List UInt8) (g : Gen) : Int × Gen :=
  let g := if 0 < key.length then (g.call accept (.string key)).2 else g
  okOr bkvInvArg (g.call accept .mapOpen)

def bkvToJsonYajlMapClose (accept : Accept) (g : Gen) : Int × Gen :=
  okOr bkvInvState (g.call accept .mapClose)

def bkvToJsonYajlArrayOpen (accept : Accept) (keyname : List UInt8) (g : Gen) : Int × Gen :=
  okOr bkvInvState (g.calls accept [.string keyname, .arrayOpen])

def bkvToJsonYajlArrayClose (accept : Accept) (g : Gen) : Int × Gen :=
  okOr bkvInvArg (g.call accept .arrayClose)

/-- What the functions of the members share: the name, then the value. -/
def yajlMember (accept : Accept) (str : List UInt8) (value : GenCall) (g : Gen) : Int × Gen :=
  okOr bkvInvArg (g.calls accept [.string str, value])

/-- What the functions of the elements share. -/
def yajlElement (accept : Accept) (value : GenCall) (g : Gen) : Int × Gen :=
  okOr bkvInvArg (g.call accept value)

/-- The name is not read when `is_array` is set. -/
def bkvToJsonYajlUint16 (accept : Accept) (str : Option (List UInt8)) (value : UInt16) (g : Gen) :
    Int × Gen :=
  match str with
  | none => yajlElement accept (.integer value.toNat) g
  | some str => yajlMember accept str (.integer value.toNat) g

def bkvToJsonYajlUint32 (accept : Accept) (str : List UInt8) (value : UInt32) : Gen → Int × Gen :=
  yajlMember accept str (.integer value.toNat)

/-- The value is converted to `long long`. -/
def bkvToJsonYajlUint64 (accept : Accept) (str : List UInt8) (value : UInt64) : Gen → Int × Gen :=
  yajlMember accept str (.integer value.toBitVec.toInt)

def bkvToJsonYajlStr (accept : Accept) (str value : List UInt8) : Gen → Int × Gen :=
  yajlMember accept str (.string value)

def bkvToJsonYajlFloat (accept : Accept) (str : List UInt8) (f : UInt32) : Gen → Int × Gen :=
  yajlMember accept str (.double f)

def bkvToJsonYajlBoolean (accept : Accept) (str : List UInt8) (v : Bool) : Gen → Int × Gen :=
  yajlMember accept str (.boolean v)

def bkvToJsonYajlArrayFloat (accept : Accept) (f : UInt32) : Gen → Int × Gen :=
  yajlElement accept (.double f)

def bkvToJsonYajlArrayBoolean (accept : Accept) (v : Bool) : Gen → Int × Gen :=
  yajlElement accept (.boolean v)

def bkvToJsonYajlArrayString (accept : Accept) (str : List UInt8) : Gen → Int × Gen :=
  yajlElement accept (.string str)

/-- `bkv_to_json_ctx_t`; `gen` is what `priv_data` leads to. -/
structure ToJsonCtx where
  jumpNextMap : Bool
  dicoVal : BkvVal
  gen : Gen

/-- The bytes between a pointer and its length. -/
def readBytes (z : Zone) (str len : Nat) : Except Fault (List UInt8) :=
  match z.slice? str len with
  | some s => .ok s
  | none => .error (.read (str + len))

/-- `l_val.u.string` after a search of the dictionary, or nothing when it failed. The search
starts from a local that was not initialised. -/
def dicoName (z : Zone) (c : ToJsonCtx) (key : UInt16) : Except Fault (Option (List UInt8)) := do
  let (l_ret, l_val) ← bkvValGet2 z c.dicoVal (some [key, bkvKeyInvalid]) 1 fun _ => bkvValInitValue
  if l_ret ≠ bkvOk then return none
  match (l_val 0).u with
  | .string str len => return some (← readBytes z str len)
  | _ => throw (.read 0)

/-- The end of most callbacks: the loop stops unless the generator function returned `BKV_OK`. -/
def stopUnless (l_ret : UInt32) (c : ToJsonCtx) (r : Int × Gen) : UInt32 × ToJsonCtx :=
  (if r.1 ≠ bkvOk then actionStopLoop else l_ret, { c with gen := r.2 })

/-- A failed search goes on without a call to the generator. -/
def bkvToJsonMapOpen (z : Zone) (accept : Accept) (key : UInt16) (c : ToJsonCtx) :
    Except Fault (UInt32 × ToJsonCtx) := do
  if c.jumpNextMap then return (actionGotoEndMap, c)
  else if key = bkvDicoKey then return (actionGotoEndMap, c)
  else if key = bkvNoKey then
    return stopUnless actionNone c (bkvToJsonYajlMapOpen accept [] c.gen)
  else match ← dicoName z c key with
    | none => return (actionNone, c)
    | some str => return stopUnless actionNone c (bkvToJsonYajlMapOpen accept str c.gen)

def bkvToJsonMapClose (accept : Accept) (c : ToJsonCtx) : UInt32 × ToJsonCtx :=
  stopUnless actionNone c (bkvToJsonYajlMapClose accept c.gen)

/-- What the callbacks of the members share: the name is looked up and the loop stops when it
is not found. `l_ret` is what is returned after a success. -/
def namedMember (z : Zone) (l_ret : UInt32) (key : UInt16) (add : List UInt8 → Gen → Int × Gen)
    (c : ToJsonCtx) : Except Fault (UInt32 × ToJsonCtx) := do
  match ← dicoName z c key with
  | none => return (actionStopLoop, c)
  | some str => return stopUnless l_ret c (add str c.gen)

/-- After a success `l_ret` was never set. -/
def bkvToJsonUint16 (env : Env) (z : Zone) (accept : Accept) (key value : UInt16) (c : ToJsonCtx) :
    Except Fault (UInt32 × ToJsonCtx) :=
  if key = bkvArrayKey then
    .ok (stopUnless env.uninitRet c (bkvToJsonYajlUint16 accept none value c.gen))
  else namedMember z env.uninitRet key (fun str => bkvToJsonYajlUint16 accept (some str) value) c

def bkvToJsonUint32 (env : Env) (z : Zone) (accept : Accept) (key : UInt16) (value : UInt32) :
    ToJsonCtx → Except Fault (UInt32 × ToJsonCtx) :=
  namedMember z env.uninitRet key (bkvToJsonYajlUint32 accept · value)

def bkvToJsonUint64 (env : Env) (z : Zone) (accept : Accept) (key : UInt16) (value : UInt64) :
    ToJsonCtx → Except Fault (UInt32 × ToJsonCtx) :=
  namedMember z env.uninitRet key (bkvToJsonYajlUint64 accept · value)

def bkvToJsonStr (z : Zone) (accept : Accept) (key : UInt16) (p_str len : Nat) (c : ToJsonCtx) :
    Except Fault (UInt32 × ToJsonCtx) := do
  if key = bkvArrayKey then
    let value ← readBytes z p_str len
    return stopUnless actionNone c (bkvToJsonYajlArrayString accept value c.gen)
  else match ← dicoName z c key with
    | none => return (actionStopLoop, c)
    | some str =>
      let value ← readBytes z p_str len
      return stopUnless actionNone c (bkvToJsonYajlStr accept str value c.gen)

/-- As for maps, a failed search goes on without a call to the generator. -/
def bkvToJsonArrayOpen (z : Zone) (accept : Accept) (key : UInt16) (c : ToJsonCtx) :
    Except Fault (UInt32 × ToJsonCtx) := do
  match ← dicoName z c key with
  | none => return (actionNone, c)
  | some str => return stopUnless actionNone c (bkvToJsonYajlArrayOpen accept str c.gen)

def bkvToJsonArrayClose (accept : Accept) (c : ToJsonCtx) : UInt32 × ToJsonCtx :=
  stopUnless actionNone c (bkvToJsonYajlArrayClose accept c.gen)

def bkvToJsonFloat (z : Zone) (accept : Accept) (key : UInt16) (f : UInt32) (c : ToJsonCtx) :
    Except Fault (UInt32 × ToJsonCtx) :=
  if key = bkvArrayKey then
    .ok (stopUnless actionNone c (bkvToJsonYajlArrayFloat accept f c.gen))
  else namedMember z actionNone key (bkvToJsonYajlFloat accept · f) c

def bkvToJsonBoolean (z : Zone) (accept : Accept) (key : UInt16) (v : Bool) (c : ToJsonCtx) :
    Except Fault (UInt32 × ToJsonCtx) :=
  if key = bkvArrayKey then
    .ok (stopUnless actionNone c (bkvToJsonYajlArrayBoolean accept v c.gen))
  else namedMember z actionNone key (bkvToJsonYajlBoolean accept · v) c

/-- `s_bkv_callbacks`; doubles have no function. -/
def toJsonCallbacks (env : Env) (z : Zone) (accept : Accept) : Callbacks ToJsonCtx
  | .mapOpen _ key, c => bkvToJsonMapOpen z accept key c
  | .mapClose _, c => .ok (bkvToJsonMapClose accept c)
  | .arrayOpen _ _ key, c => bkvToJsonArrayOpen z accept key c
  | .arrayClose, c => .ok (bkvToJsonArrayClose accept c)
  | .uint16 _ _ key v, c => bkvToJsonUint16 env z accept key v c
  | .uint32 _ _ key v, c => bkvToJsonUint32 env z accept key v c
  | .uint64 _ _ key v, c => bkvToJsonUint64 env z accept key v c
  | .str _ key p_str len, c => bkvToJsonStr z accept key p_str len c
  | .float _ key f, c => bkvToJsonFloat z accept key f c
  | .double .., _ => .error .nullCallback
  | .boolean _ key v, c => bkvToJsonBoolean z accept key v c

/-- The result and the generator at the end. The result of `bkv_val_init` is not looked at. -/
def bkvToJson (env : Env) (accept : Accept) (h : Bkv) : Except Fault (Int × Gen) := do
  let z := bkvGetHead h
  let (_, l_bkv_head) ← bkvValInit z bkvValInitValue 0
  let (l_ret, dico_val) ←
    bkvValGet2 z l_bkv_head (some [bkvDicoKey, bkvKeyInvalid]) 1 fun _ => bkvValInitValue
  if l_ret ≠ bkvOk then return (l_ret, ⟨[], []⟩)
  let (l_ret, c) ←
    bkvValForeach z l_bkv_head (toJsonCallbacks env z accept) ⟨false, dico_val 0, ⟨[], []⟩⟩
  return (l_ret, c.gen)

end Wtools
