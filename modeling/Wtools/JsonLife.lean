import Wtools.HandleGoods
import Wtools.JsonStops
import Wtools.Nesting

/-!
# The life of a JSON document

What `bkv_from_json` with a direct dictionary takes from the system, and what it leaves when it
returns. The buffers of its two handles move while the text is parsed. Every call of `malloc` has an
answer of its own: when there is no memory for `dico_ctx_t`, the text is parsed without a
dictionary.
-/

namespace Wtools.Life

open ByteMemory Ownership

/-- The `BKV_CREATE_INIT` of `bkv_from_json` and of the dictionaries. -/
def ramCreate : BkvCreate := { bkvCreateInit with createType := .workInRam }

/-- The surroundings of the two calls of `bkv_create` and of all other calls, and whether there is
memory for `dico_direct_ctx_t` and for `dico_ctx_t`. -/
structure Answers where
  data : Env
  names : Env
  rest : Env
  direct : Bool
  dico : Bool

/-- The same surroundings throughout. -/
def Answers.of (env : Env) : Answers := ⟨env, env, env, env.mallocHandle, env.mallocHandle⟩

/-- `dico_ctx_t` and `dico_direct_ctx_t` by their addresses, and the handle for the names. -/
structure DirectDico where
  self : Nat
  priv : Nat
  handle : Handle

/-- `bkv_from_json_ctx_t`: the two handles, and a context for its other fields. -/
structure FromJsonRun where
  data : Handle
  dico : Option DirectDico
  rest : FromJsonCtx

def FromJsonRun.ctx (j : FromJsonRun) : FromJsonCtx :=
  { j.rest with
    dataHandle := j.data.bkv, dicoHandle := j.dico.map fun d => .direct d.handle.bkv }

/-- `dico_direct_create`. -/
def dicoDirectCreate (a : Answers) (id : Nat) : Proc Resource (Option (Nat × Handle)) := do
  match ← create a.names id ramCreate 0 (-1) with
  | (_, none) => return none
  | (_, some l_bkv) =>
    let h ← write a.rest l_bkv (.opening .map bkvDicoKey)
    if (exec a.rest l_bkv.bkv (.opening .map bkvDicoKey)).1 ≠ bkvOk then return none
    let l_ctx ← malloc a.direct
    return if l_ctx = 0 then none else some (l_ctx, h)

/-- `bkv_dico_create`. Without memory for `dico_ctx_t` it returns the result of the plug. -/
def dicoCreate (a : Answers) (id : Nat) : Proc Resource (Int × Option DirectDico) := do
  match ← dicoDirectCreate a id with
  | none => return (bkvInvArg, none)
  | some (priv, handle) =>
    let self ← malloc a.dico
    return (bkvOk, if self = 0 then none else some ⟨self, priv, handle⟩)

/-- The dictionary after a callback. -/
def dicoAfter : Option DirectDico → Option Dico → Proc Resource (Option DirectDico)
  | some d, some (.direct h) => do
    touch d.self
    touch d.priv
    let handle ← advance d.handle h
    return some { d with handle }
  | none, none => pure none
  | _, _ => failure

/-- A callback of the parser: at most one call of the writer, on one of the two handles. -/
def FromJsonRun.callback (env : Env) (float : List UInt8 → UInt32) (e : JsonEvent)
    (j : FromJsonRun) : Proc Resource (Int × FromJsonRun) :=
  match jsonCallback env float e j.ctx with
  | .error _ => failure
  | .ok (l_ret, c) => do
    let data ← advance j.data c.dataHandle
    let dico ← dicoAfter j.dico c.dicoHandle
    return (l_ret, ⟨data, dico, c⟩)

/-- `yajl_parse`. -/
def FromJsonRun.parse (env : Env) (float : List UInt8 → UInt32) :
    List JsonEvent → FromJsonRun → Proc Resource (Bool × FromJsonRun)
  | [], j => pure (true, j)
  | e :: es, j => do
    let (l_ret, j) ← j.callback env float e
    if l_ret = 0 then return (false, j)
    parse env float es j

/-- `bkv_dico_destroy`: of the two contexts only the one of the plug is freed. -/
def dicoDestroy (env : Env) (d : DirectDico) : Proc Resource (Int × Option Handle) := do
  touch d.self
  touch d.priv
  let h ← write env d.handle (.closing .map)
  if (exec env d.handle.bkv (.closing .map)).1 ≠ bkvOk then
    return ((exec env d.handle.bkv (.closing .map)).1, none)
  free d.priv
  return (bkvOk, some h)

/-- The end of `bkv_from_json`: the document of the dictionary is appended, and not destroyed. -/
def splice (env : Env) (data a : Handle) : Proc Resource (Int × Option Handle) := do
  let data' ← append env data a.self (fun _ => a.read (List.range a.bkv.writeOffset)) a.bkv.toTail
  let l_error := (bkvAppend env data.bkv a.bkv.toTail).1
  if l_error ≠ bkvOk then return (l_error, some data')
  let closed ← write env data' (.closing .map)
  return ((exec env data'.bkv (.closing .map)).1, some closed)

/-- What `bkv_from_json` does when the text has been read. -/
def appendDico (env : Env) (j : FromJsonRun) : Proc Resource (Int × Option Handle) :=
  match j.dico with
  | none => pure (bkvOk, some j.data)
  | some d => do
    match ← dicoDestroy env d with
    | (l_error, none) => return (l_error, some j.data)
    | (_, some a) => splice env j.data a

/-- `bkv_from_json` from its parser on. -/
def readText (env : Env) (float : List UInt8 → UInt32) (text : List JsonEvent)
    (j : FromJsonRun) : Proc Resource (Int × Option Handle) := do
  let (ok, j) ← FromJsonRun.parse env float text j
  if !ok then return (bkvInvArg, none)
  appendDico env j

/-- `bkv_from_json`. -/
def fromJson (a : Answers) (float : List UInt8 → UInt32) (text : List JsonEvent) :
    Proc Resource (Int × Option Handle) := do
  match ← create a.data 0 ramCreate 0 (-1) with
  | (l_error, none) => return (l_error, none)
  | (_, some data) =>
    let (l_error, dico) ← dicoCreate a 1
    if l_error ≠ bkvOk then return (l_error, none)
    readText a.rest float text ⟨data, dico, ⟨data.bkv, none, 0, false, 1, a.rest.uninitKey⟩⟩

section Within

/-- The document of a direct dictionary. -/
def directHandle : Option Dico → Option Bkv
  | some (.direct h) => some h
  | _ => none

/-- What a callback stores in the two handles lies inside of their buffers. -/
def CtxInside (c c' : FromJsonCtx) : Prop :=
  Inside c.dataHandle c'.dataHandle ∧
    ∀ h ∈ directHandle c.dicoHandle, ∀ h' ∈ directHandle c'.dicoHandle, Inside h h'

/-- No callback stores outside, and none needs a dictionary that is not there. -/
def ParseInside (env : Env) (float : List UInt8 → UInt32) : List JsonEvent → FromJsonCtx → Prop
  | [], _ => True
  | e :: es, c => ∃ l_ret c', jsonCallback env float e c = .ok (l_ret, c') ∧ CtxInside c c' ∧
      (l_ret ≠ 0 → ParseInside env float es c')

/-- The dictionary is closed, copied and followed by the end of the map without an access outside of
the buffers. -/
def EndInside (env : Env) (data dico : Bkv) : Prop :=
  Inside dico (exec env dico (.closing .map)).2 ∧
    ∀ a, Wtools.dicoDirectDestroy env dico = (bkvOk, some a) →
      (bkvAppend env data a.toTail).1 = bkvOk → (∀ i < a.writeOffset, (i : Int) < a.memSize) ∧
        Inside (bkvAppend env data a.toTail).2
          (exec env (bkvAppend env data a.toTail).2 (.closing .map)).2

/-- The document for the names, when the dictionary is created. -/
def namesOf (a : Answers) : Bkv :=
  (exec a.rest (freshHandle a.names 1 (-1)) (.opening .map bkvDicoKey)).2

/-- The context of the parser when it begins. -/
def startOf (a : Answers) : FromJsonCtx :=
  ⟨freshHandle a.data 0 (-1), if a.dico then some (.direct (namesOf a)) else none, 0, false, 1,
    a.rest.uninitKey⟩

/-- The text is read and its names are appended without such an access. -/
def TextInside (env : Env) (float : List UInt8 → UInt32) (text : List JsonEvent)
    (c : FromJsonCtx) : Prop :=
  ParseInside env float text c ∧ ∀ c' h, yajlParse env float text c = .ok (true, c') →
    c'.dicoHandle = some (.direct h) → EndInside env c'.dataHandle h

/-- `bkv_from_json` comes to its parser. -/
structure Answers.Reach (a : Answers) : Prop where
  data : Creates a.data
  names : Creates a.names
  direct : a.direct

/-- From there on it stays inside of the buffers. -/
def JsonInside (a : Answers) (float : List UInt8 → UInt32) (text : List JsonEvent) : Prop :=
  a.Reach → TextInside a.rest float text (startOf a)

/-- What `bkv_from_json` gives when the parser has ended. -/
def givenBy (env : Env) (ok : Bool) (c : FromJsonCtx) : Int × Option Bkv :=
  if !ok then (bkvInvArg, none)
  else match c.dicoHandle with
    | some (.direct h) => appendNames env c.dataHandle (Wtools.dicoDirectDestroy env h)
    | _ => (bkvOk, some c.dataHandle)

end Within

variable {env : Env} {hd : Handle} {h : Bkv}

/-- A handle in RAM with its buffer and no `end_hdl`. -/
structure Handle.Ram (hd : Handle) : Prop where
  ram : hd.bkv.fd = -1
  noEnd : hd.endHdl = none
  ptr : hd.ptr ≠ 0
  room : hd.room = hd.bkv.memSize
  writable : hd.writable

section Ram
variable (hr : hd.Ram)
include hr

theorem Handle.Ram.kinds : Life.kinds hd.goods = Multiset.replicate 2 .block := by
  rw [Handle.goods_ram hr.ram, blockAt_of_ne hr.ptr, Handle.kept, hr.noEnd]
  rfl

theorem Handle.Ram.reads (offs : List Nat) :
    hd.Reads offs ↔ ∀ i ∈ offs, (i : Int) < hd.bkv.memSize := by
  simp [Handle.Reads, hr.ptr, hr.room]

theorem Handle.Ram.fits (h : Bkv) (offs : List Nat) :
    hd.Fits h offs ↔ ∀ i ∈ offs, (i : Int) < h.memSize := by
  rw [Handle.Fits]
  split
  · rename_i hsize
    simp [Handle.Stores, hr.ptr, hr.room, hr.writable, hsize]
  · rfl

theorem Handle.Ram.advances (h : Bkv) : hd.Advances h ↔ Inside hd.bkv h :=
  and_congr_right fun _ => hr.fits h _

theorem Handle.Ram.grown {hd' : Handle} (hg : Grown hd h hd') (hfd : h.fd = -1) : hd'.Ram where
  ram := hg.bkv ▸ hfd
  noEnd := hg.endHdl.trans hr.noEnd
  ptr := mt hg.ptr.mp fun h => hr.ptr h.2
  room := by
    rw [hg.bkv]
    rcases hg.room with ⟨hsize, hroom, -⟩ | ⟨hroom, -⟩
    · rw [hroom, hr.room, hsize]
    · exact hroom
  writable := by
    rcases hg.room with ⟨-, -, hwritable⟩ | ⟨-, hwritable⟩
    · rw [hwritable]
      exact hr.writable
    · exact hwritable

theorem advance_ram (hg : Regrown hd.bkv h) (hin : Inside hd.bkv h) : Owns hd.goods (advance hd h)
    fun hd' own => own = hd'.goods ∧ hd'.bkv = h ∧ hd'.Ram := by
  refine (advance_owns hg.fd ((hr.advances h).mpr hin)).mono fun hd' own hown => ?_
  obtain ⟨rfl, hgrown⟩ := hown
  rw [growthLoss, if_pos (.inr hr.ram), add_zero]
  exact ⟨rfl, hgrown.bkv, hr.grown hgrown (hg.fd.trans hr.ram)⟩

theorem write_ram {c : Call} (hin : Inside hd.bkv (exec env hd.bkv c).2) :
    Owns hd.goods (write env hd c) fun hd' own =>
      own = hd'.goods ∧ hd'.bkv = (exec env hd.bkv c).2 ∧ hd'.Ram :=
  advance_ram hr (exec_regrown env hd.bkv c) hin

theorem write_ram_fails {c : Call} (hin : ¬Inside hd.bkv (exec env hd.bkv c).2) :
    Fails hd.goods (write env hd c) :=
  write_fails (mt (hr.advances _).mp hin)

theorem advance_ram_fails (hg : Regrown hd.bkv h) (hin : ¬Inside hd.bkv h) :
    Fails hd.goods (advance hd h) :=
  advance_fails hg.fd (mt (hr.advances h).mp hin)

/-- `bkv_append` makes the buffer as long as it has to be. -/
theorem Handle.Ram.takesTail (env : Env) (a : Tail) : hd.TakesTail env a := by
  intro hok
  rw [if_pos hr.ram, hr.fits]
  intro i hi
  have hlast : (i : Int) < hd.bkv.writeOffset + a.writeOffset := by
    rw [List.mem_range'_1] at hi
    omega
  refine Int.lt_of_lt_of_le hlast ?_
  rw [bkvAppend] at hok ⊢
  dsimp only at hok ⊢
  split
  · rename_i hlong
    rw [if_pos hlong, if_neg (not_not_intro hr.ram)] at hok
    rw [if_neg (not_not_intro hr.ram)]
    split
    · rename_i hno
      rw [if_pos hno] at hok
      exact absurd hok (show bkvHdlMem ≠ bkvOk by decide)
    · have hchunk : bkvDefaultMemChunkSize ≠ 0 := by decide
      exact Int.le_of_eq (Int.mul_tdiv_cancel _ hchunk).symm
  · rename_i hshort
    exact Int.not_lt.mp hshort

end Ram

theorem create_ram (hcr : Creates env) (id : Nat) : Owns 0 (create env id ramCreate 0 (-1))
    fun r own => ∃ hd, r = (bkvOk, some hd) ∧ own = hd.goods ∧ hd.Ram ∧
      hd.bkv = freshHandle env id (-1) := by
  have hcreate : bkvCreate env id ramCreate = (bkvOk, some (freshHandle env id (-1))) :=
    hcr.create id
  refine (create_owns env id ⟨by simp [ramCreate], by simp [ramCreate]⟩).mono fun r own hown => ?_
  obtain ⟨l_ret, o⟩ := r
  obtain ⟨hret, hnew⟩ := hown
  rw [hcreate] at hret
  obtain rfl : l_ret = bkvOk := hret
  cases o with
  | none =>
    rw [Created, hcreate] at hnew
    cases hnew.2
  | some hd =>
    obtain ⟨rfl, hkinds, hend, -, hbkv, hroom, hwritable⟩ := hnew
    rw [hcreate] at hbkv
    have hfresh : freshHandle env id (-1) = hd.bkv := Option.some.inj hbkv
    have hfd : hd.bkv.fd = -1 := by rw [← hfresh]; rfl
    refine ⟨hd, rfl, rfl, ⟨hfd, hend, fun hptr => ?_, hroom, by rw [hwritable]; rfl⟩, hfresh.symm⟩
    -- a buffer at NULL would be missing among what was taken
    rw [Handle.goods_ram hfd, hptr, Handle.kept, hend, bufferKinds, ramCreate] at hkinds
    dsimp only at hkinds
    rw [if_pos hcr.malloc] at hkinds
    exact absurd (congrArg Multiset.card hkinds) (by simp [blockAt, kinds])

theorem create_refused (hcr : ¬Creates env) (id : Nat) : Owns 0 (create env id ramCreate 0 (-1))
    fun r own => ∃ l_error, r = (l_error, none) ∧ l_error ≠ bkvOk ∧
      kinds own = bufferKinds env ramCreate ∧ (bkvCreate env id ramCreate).1 = l_error := by
  refine (create_owns env id ⟨by simp [ramCreate], by simp [ramCreate]⟩).mono fun r own hown => ?_
  obtain ⟨l_error, o⟩ := r
  obtain ⟨hret, hnew⟩ := hown
  have hrun : bkvCreate env id ramCreate = (bkvHdlMem, none) := by
    by_cases hm : env.malloc bkvDefaultMemChunkSize
    · have hh : env.mallocHandle = false := by
        simpa using fun hh => hcr ⟨hm, hh⟩
      simp [bkvCreate, openBuffer, ramCreate, hm, hh]
    · simp [bkvCreate, openBuffer, ramCreate, hm]
  have hnone : (bkvCreate env id ramCreate).2 = none := by rw [hrun]
  have hko : l_error ≠ bkvOk := by
    rw [show l_error = bkvHdlMem from hret.trans (by rw [hrun])]
    decide
  cases o with
  | none => exact ⟨l_error, rfl, hko, hnew.1, hret.symm⟩
  | some hd =>
    have hsome := hnew.bkv
    rw [hnone] at hsome
    cases hsome

def DirectDico.goods (d : DirectDico) : Multiset Resource :=
  d.handle.goods + {.block d.self, .block d.priv}

/-- What belongs to a dictionary, when there is one. -/
def dicoGoods (o : Option DirectDico) : Multiset Resource := o.elim 0 DirectDico.goods

def FromJsonRun.goods (j : FromJsonRun) : Multiset Resource := j.data.goods + dicoGoods j.dico

structure FromJsonRun.Ram (j : FromJsonRun) : Prop where
  data : j.data.Ram
  dico : ∀ d ∈ j.dico, d.handle.Ram

section Callbacks
variable {float : List UInt8 → UInt32} {c c' : FromJsonCtx} {l_ret : Int} {e : JsonEvent}

/-- A callback grows the buffer of the data handle at most once. -/
theorem callback_data (hrun : jsonCallback env float e c = .ok (l_ret, c')) :
    Regrown c.dataHandle c'.dataHandle := by
  rcases callback_calls hrun with hkept | ⟨call, hcall⟩
  · rw [hkept]
    exact .refl _
  · rw [hcall]
    exact exec_regrown env c.dataHandle call

/-- And so that of a direct dictionary. -/
theorem callback_regrown {h₀ : Bkv} (hd : c.dicoHandle = some (.direct h₀))
    (hrun : jsonCallback env float e c = .ok (l_ret, c')) :
    ∃ h₁, c'.dicoHandle = some (.direct h₁) ∧ Regrown h₀ h₁ := by
  cases hname : e.name? with
  | none => exact ⟨h₀, (callback_dico hname hrun).1.trans hd, .refl h₀⟩
  | some w =>
    cases e with
    | mapKey key =>
      rw [jsonCallback, bkvJsonMapKeys, hd] at hrun
      simp only [bkvDicoKeyAdd, dicoDirectKeyAdd, pure_ok, ok_bind] at hrun
      refine ⟨(bkvKvStrAdd env h₀ (c.keyIndex + 1) key).2, ?_,
        exec_regrown env h₀ (.add (.keyed _ (.str key)))⟩
      split at hrun
      all_goals
        cases hrun
        rfl
    | _ => cases hname

/-- Without a dictionary there is none after a callback. -/
theorem callback_none (hd : c.dicoHandle = none)
    (hrun : jsonCallback env float e c = .ok (l_ret, c')) : c'.dicoHandle = none := by
  cases hname : e.name? with
  | none => exact (callback_dico hname hrun).1.trans hd
  | some w =>
    cases e with
    | mapKey key =>
      rw [jsonCallback, bkvJsonMapKeys, hd] at hrun
      cases hrun
    | _ => cases hname

end Callbacks

section Parse
variable {float : List UInt8 → UInt32} {e : JsonEvent} {j : FromJsonRun} {d : DirectDico}

/-- How the dictionary of a run goes on as that of a context. -/
inductive Goes : Option DirectDico → Option Dico → Prop
  | none : Goes none none
  | direct {d : DirectDico} {h : Bkv} (hr : d.handle.Ram) (hg : Regrown d.handle.bkv h) :
    Goes (some d) (some (.direct h))

theorem goes_of (hj : j.Ram) {c : FromJsonCtx} {l_ret : Int}
    (hrun : jsonCallback env float e j.ctx = .ok (l_ret, c)) : Goes j.dico c.dicoHandle := by
  have hctx : j.ctx.dicoHandle = j.dico.map fun d => .direct d.handle.bkv := rfl
  cases hdico : j.dico with
  | none =>
    rw [hdico] at hctx
    rw [callback_none hctx hrun]
    exact .none
  | some d =>
    rw [hdico] at hctx
    obtain ⟨h, hh, hg⟩ := callback_regrown hctx hrun
    rw [hh]
    exact .direct (hj.dico d hdico) hg

theorem Goes.isSome {o : Option DirectDico} {o' : Option Dico} (hgoes : Goes o o') :
    o'.isSome = o.isSome := by
  cases hgoes with
  | none => rfl
  | direct => rfl

theorem dicoAfter_owns {o : Option DirectDico} {o' : Option Dico} (hgoes : Goes o o')
    (hin : ∀ d ∈ o, ∀ h ∈ directHandle o', Inside d.handle.bkv h) :
    Owns (dicoGoods o) (dicoAfter o o') fun o₁ own => own = dicoGoods o₁ ∧
      (o₁.map fun d => Dico.direct d.handle.bkv) = o' ∧ ∀ d ∈ o₁, d.handle.Ram := by
  cases hgoes with
  | none => exact Owns.pure ⟨rfl, rfl, fun d hd => by cases hd⟩
  | @direct d h hr hg =>
    change Owns d.goods _ _
    refine (touch_owns (by simp [DirectDico.goods])).bind fun _ own hown => ?_
    subst hown
    refine (touch_owns (by simp [DirectDico.goods])).bind fun _ own hown => ?_
    subst hown
    refine ((advance_ram hr hg (hin d rfl h rfl)).frame _).bind fun handle own hown => ?_
    obtain ⟨own, rfl, rfl, hbkv, hram⟩ := hown
    refine Owns.pure ⟨rfl, by rw [Option.map_some, hbkv], fun d' hd' => ?_⟩
    cases hd'
    exact hram

theorem dicoAfter_fails {o : Option DirectDico} {o' : Option Dico} (hgoes : Goes o o')
    (hin : ¬∀ d ∈ o, ∀ h ∈ directHandle o', Inside d.handle.bkv h) :
    Fails (dicoGoods o) (dicoAfter o o') := by
  cases hgoes with
  | none => exact absurd (fun d hd => by cases hd) hin
  | @direct d h hr hg =>
    have hout : ¬Inside d.handle.bkv h := fun hh => hin fun d' hd' h' hh' => by
      cases hd'
      cases hh'
      exact hh
    change Fails d.goods _
    refine (touch_owns (by simp [DirectDico.goods])).bind_fails fun _ own hown => ?_
    subst hown
    refine (touch_owns (by simp [DirectDico.goods])).bind_fails fun _ own hown => ?_
    subst hown
    exact ((advance_ram_fails hr hg hout).frame _).bind _

/-- What `CtxInside` says of a run. -/
theorem ctxInside_iff {c : FromJsonCtx} : CtxInside j.ctx c ↔
    Inside j.data.bkv c.dataHandle ∧
      ∀ d ∈ j.dico, ∀ h ∈ directHandle c.dicoHandle, Inside d.handle.bkv h := by
  refine and_congr_right fun _ => ?_
  cases hdico : j.dico with
  | none => simp [FromJsonRun.ctx, hdico, directHandle]
  | some d => simp [FromJsonRun.ctx, hdico, directHandle]

/-- The callbacks keep what the two handles own, and give what they give without a system. -/
theorem callback_owns (hj : j.Ram) {c : FromJsonCtx} {l_ret : Int}
    (hrun : jsonCallback env float e j.ctx = .ok (l_ret, c)) (hin : CtxInside j.ctx c) :
    Owns j.goods (j.callback env float e) fun r own => own = r.2.goods ∧ r.2.Ram ∧
      r.1 = l_ret ∧ r.2.ctx = c ∧ r.2.dico.isSome = j.dico.isSome := by
  obtain ⟨hdata, hdico⟩ := ctxInside_iff.mp hin
  rw [FromJsonRun.callback, hrun]
  refine ((advance_ram hj.data (callback_data hrun) hdata).frame (dicoGoods j.dico)).bind
    fun data own hown => ?_
  obtain ⟨own, rfl, rfl, hbkv, hram⟩ := hown
  rw [add_comm]
  refine ((dicoAfter_owns (goes_of hj hrun) hdico).frame data.goods).bind fun o own hown => ?_
  obtain ⟨own, rfl, rfl, ho, hram'⟩ := hown
  refine Owns.pure ⟨add_comm .., ⟨hram, hram'⟩, rfl, ?_, ?_⟩
  · rw [FromJsonRun.ctx, hbkv, ho]
  · rw [← (goes_of hj hrun).isSome, ← ho, Option.isSome_map]

theorem callback_fails (hj : j.Ram) (hout : ¬∃ l_ret c, jsonCallback env float e j.ctx =
    .ok (l_ret, c) ∧ CtxInside j.ctx c) : Fails j.goods (j.callback env float e) := by
  rw [FromJsonRun.callback]
  cases hrun : jsonCallback env float e j.ctx with
  | error _ => exact Fails.failure
  | ok r =>
    obtain ⟨l_ret, c⟩ := r
    dsimp only
    by_cases hdata : Inside j.data.bkv c.dataHandle
    · refine ((advance_ram hj.data (callback_data hrun) hdata).frame (dicoGoods j.dico)).bind_fails
        fun data own hown => ?_
      obtain ⟨own, rfl, rfl, -⟩ := hown
      rw [add_comm]
      refine ((dicoAfter_fails (goes_of hj hrun) fun hdico => hout ?_).frame _).bind _
      exact ⟨l_ret, c, hrun, ctxInside_iff.mpr ⟨hdata, hdico⟩⟩
    · exact ((advance_ram_fails hj.data (callback_data hrun) hdata).frame _).bind _

theorem parse_owns {es : List JsonEvent} (hj : j.Ram) (hin : ParseInside env float es j.ctx) :
    Owns j.goods (FromJsonRun.parse env float es j) fun r own => own = r.2.goods ∧ r.2.Ram ∧
      yajlParse env float es j.ctx = .ok (r.1, r.2.ctx) ∧ r.2.dico.isSome = j.dico.isSome := by
  induction es generalizing j with
  | nil => exact Owns.pure ⟨rfl, hj, rfl, rfl⟩
  | cons e es ih =>
    obtain ⟨l_ret, c, hrun, hcb, hrest⟩ := hin
    refine (callback_owns hj hrun hcb).bind fun r own hown => ?_
    obtain ⟨l_ret, j'⟩ := r
    obtain ⟨rfl, hj', rfl, rfl, hsome⟩ := hown
    rw [yajlParse, hrun, ok_bind]
    dsimp only
    by_cases hstop : l_ret = 0
    · rw [if_pos hstop, if_pos hstop]
      exact Owns.pure ⟨rfl, hj', rfl, hsome⟩
    · rw [if_neg hstop, if_neg hstop]
      exact hsome ▸ ih hj' (hrest hstop)

theorem parse_fails {es : List JsonEvent} (hj : j.Ram) (hout : ¬ParseInside env float es j.ctx) :
    Fails j.goods (FromJsonRun.parse env float es j) := by
  induction es generalizing j with
  | nil => exact absurd trivial hout
  | cons e es ih =>
    by_cases hcb : ∃ l_ret c, jsonCallback env float e j.ctx = .ok (l_ret, c) ∧ CtxInside j.ctx c
    · obtain ⟨l_ret, c, hrun, hcb⟩ := hcb
      refine (callback_owns hj hrun hcb).bind_fails fun r own hown => ?_
      obtain ⟨l_ret, j'⟩ := r
      obtain ⟨rfl, hj', rfl, rfl, -⟩ := hown
      have hstop : l_ret ≠ 0 := fun hstop => hout ⟨l_ret, _, hrun, hcb, fun h => absurd hstop h⟩
      dsimp only
      rw [if_neg hstop]
      exact ih hj' fun hrest => hout ⟨l_ret, _, hrun, hcb, fun _ => hrest⟩
    · exact (callback_fails hj hcb).bind _

end Parse

section Creation
variable {a : Answers}

/-- The map of the names is opened, and a fresh buffer has room for it. -/
theorem namesOf_opened (hcr : Creates a.names) :
    exec a.rest (freshHandle a.names 1 (-1)) (.opening .map bkvDicoKey) = (bkvOk, namesOf a) ∧
      Inside (freshHandle a.names 1 (-1)) (namesOf a) := by
  obtain ⟨h, hopen, -⟩ := (hcr.fresh_sim 1).accept a.rest (c := .opening .map bkvDicoKey) rfl
  refine ⟨by rw [namesOf, hopen], (by decide : (0 : Int) < 32), ?_⟩
  have hstores : newStores (freshHandle a.names 1 (-1)) (namesOf a) = [0, 1] := rfl
  have hsize : (namesOf a).memSize = 128 := rfl
  intro i hi
  rw [hstores] at hi
  rw [hsize]
  rcases List.mem_pair.mp hi with rfl | rfl
  · decide
  · decide

theorem dicoDirectCreate_owns (hcr : Creates a.names) : Owns 0 (dicoDirectCreate a 1)
    fun o own => a.direct = false ∧ o = none ∧ kinds own = Multiset.replicate 2 .block ∨
      a.direct = true ∧ ∃ priv handle, o = some (priv, handle) ∧
        own = handle.goods + {.block priv} ∧ handle.Ram ∧ handle.bkv = namesOf a := by
  obtain ⟨hopen, hin⟩ := namesOf_opened hcr
  refine (create_ram hcr 1).bind fun r own hown => ?_
  obtain ⟨hd, rfl, rfl, hr, hbkv⟩ := hown
  have hopen' : exec a.rest hd.bkv (.opening .map bkvDicoKey) = (bkvOk, namesOf a) := hbkv ▸ hopen
  have hin' : Inside hd.bkv (exec a.rest hd.bkv (.opening .map bkvDicoKey)).2 := by
    rw [hopen', hbkv]
    exact hin
  refine (write_ram hr hin').bind fun handle own hown => ?_
  obtain ⟨rfl, hh, hram⟩ := hown
  rw [hopen'] at hh
  rw [hopen', if_neg (not_not_intro rfl)]
  refine ((malloc_owns _).beside _).bind fun l_ctx own hown => ?_
  obtain ⟨own, rfl, hptr, rfl⟩ := hown
  cases hdirect : a.direct with
  | false =>
    have hnull : l_ctx = 0 := hptr.mpr hdirect
    rw [if_pos hnull, hnull, blockAt, if_pos rfl, zero_add]
    exact Owns.pure (.inl ⟨rfl, rfl, hram.kinds⟩)
  | true =>
    have hne : l_ctx ≠ 0 := mt hptr.mp (by simp [hdirect])
    rw [if_neg hne, blockAt_of_ne hne]
    exact Owns.pure (.inr ⟨rfl, l_ctx, handle, rfl, add_comm .., hram, hh⟩)

theorem dicoDirectCreate_refused (hcr : ¬Creates a.names) : Owns 0 (dicoDirectCreate a 1)
    fun o own => o = none ∧ kinds own = bufferKinds a.names ramCreate := by
  refine (create_refused hcr 1).bind fun r own hown => ?_
  obtain ⟨l_error, rfl, -, hkinds, -⟩ := hown
  exact Owns.pure ⟨rfl, hkinds⟩

/-- What `bkv_dico_create` gives the parser, and what of it is lost. -/
structure DicoMade (a : Answers) (o : Option DirectDico) (gone : Multiset Resource) : Prop where
  names : (o.map fun d => Dico.direct d.handle.bkv) =
    if a.dico then some (.direct (namesOf a)) else none
  ram : ∀ d ∈ o, d.handle.Ram
  lost : kinds gone = Multiset.replicate (if a.dico then 0 else 3) .block

theorem dicoCreate_refused (hcr : ¬Creates a.names) : Owns 0 (dicoCreate a 1)
    fun r own => r = (bkvInvArg, none) ∧ kinds own = bufferKinds a.names ramCreate := by
  refine (dicoDirectCreate_refused hcr).bind fun o own hown => ?_
  obtain ⟨rfl, hkinds⟩ := hown
  exact Owns.pure ⟨rfl, hkinds⟩

theorem dicoCreate_owns (hcr : Creates a.names) : Owns 0 (dicoCreate a 1) fun r own =>
    a.direct = false ∧ r = (bkvInvArg, none) ∧ kinds own = Multiset.replicate 2 .block ∨
      a.direct = true ∧ r.1 = bkvOk ∧ ∃ gone, own = dicoGoods r.2 + gone ∧
        DicoMade a r.2 gone := by
  refine (dicoDirectCreate_owns hcr).bind fun o own hown => ?_
  rcases hown with ⟨hdirect, rfl, hkinds⟩ | ⟨hdirect, priv, handle, rfl, rfl, hram, hnames⟩
  · exact Owns.pure (.inl ⟨hdirect, rfl, hkinds⟩)
  refine ((malloc_owns _).beside _).bind fun self own hown => ?_
  obtain ⟨own, rfl, hptr, rfl⟩ := hown
  refine Owns.pure (.inr ⟨hdirect, rfl, ?_⟩)
  cases hdico : a.dico with
  | false =>
    have hnull : self = 0 := hptr.mpr hdico
    rw [if_pos hnull, hnull, blockAt, if_pos rfl, zero_add]
    refine ⟨_, (zero_add _).symm, by rw [hdico]; rfl,
      fun d hd => absurd hd (Option.not_mem_none d), ?_⟩
    rw [hdico, kinds_add, hram.kinds]
    rfl
  | true =>
    have hne : self ≠ 0 := mt hptr.mp (by simp [hdico])
    rw [if_neg hne, blockAt_of_ne hne]
    refine ⟨0, ?_, by rw [hdico, ← hnames]; rfl, fun d hd => ?_, by rw [hdico]; rfl⟩
    · rw [add_zero, dicoGoods, Option.elim_some, DirectDico.goods, Multiset.insert_eq_cons,
        ← Multiset.singleton_add, add_left_comm]
    · cases hd
      exact hram

end Creation

section End
variable {d : DirectDico} {j : FromJsonRun}

/-- With the dictionary's map closed one context is left of it besides the handle. -/
theorem dicoDestroy_owns (hr : d.handle.Ram)
    (hin : Inside d.handle.bkv (exec env d.handle.bkv (.closing .map)).2) :
    Owns d.goods (dicoDestroy env d) fun r own =>
      Wtools.dicoDirectDestroy env d.handle.bkv = (r.1, r.2.map Handle.bkv) ∧
        (r.2 = none → r.1 ≠ bkvOk ∧ kinds own = Multiset.replicate 4 .block) ∧
        ∀ a, r.2 = some a → r.1 = bkvOk ∧ own = a.goods + {.block d.self} ∧ a.Ram := by
  refine (touch_owns (by simp [DirectDico.goods])).bind fun _ own hown => ?_
  subst hown
  refine (touch_owns (by simp [DirectDico.goods])).bind fun _ own hown => ?_
  subst hown
  refine ((write_ram hr hin).frame _).bind fun a own hown => ?_
  obtain ⟨own, rfl, rfl, hbkv, hram⟩ := hown
  have hclose : bkvKvMapClose env d.handle.bkv = exec env d.handle.bkv (.closing .map) := rfl
  rw [Wtools.dicoDirectDestroy, hclose]
  dsimp only
  by_cases hok : (exec env d.handle.bkv (.closing .map)).1 = bkvOk
  · rw [if_neg (not_not_intro hok), if_neg (not_not_intro hok)]
    have hswap : a.goods + {Resource.block d.self, Resource.block d.priv} =
        Resource.block d.priv ::ₘ (a.goods + {.block d.self}) := by
      rw [Multiset.insert_eq_cons, ← Multiset.singleton_add, ← Multiset.singleton_add,
        add_comm {Resource.block d.self}, add_left_comm]
    rw [hswap]
    refine (release_owns _ _).bind fun _ own hown => ?_
    subst hown
    refine Owns.pure ⟨by rw [Option.map_some, hbkv], by simp, fun b hb => ?_⟩
    cases hb
    exact ⟨rfl, rfl, hram⟩
  · rw [if_pos hok, if_pos hok]
    refine Owns.pure ⟨rfl, fun _ => ⟨hok, ?_⟩, by simp⟩
    rw [kinds_add, hram.kinds]
    rfl

theorem dicoDestroy_fails (hr : d.handle.Ram)
    (hout : ¬Inside d.handle.bkv (exec env d.handle.bkv (.closing .map)).2) :
    Fails d.goods (dicoDestroy env d) := by
  refine (touch_owns (by simp [DirectDico.goods])).bind_fails fun _ own hown => ?_
  subst hown
  refine (touch_owns (by simp [DirectDico.goods])).bind_fails fun _ own hown => ?_
  subst hown
  exact ((write_ram_fails hr hout).frame _).bind _

section Splice
variable {data a : Handle} {others : Multiset Resource} (hdata : data.Ram) (har : a.Ram)
include har

/-- What `bkv_append` copies from. -/
theorem Handle.Ram.readsTail : a.Reads (List.range a.bkv.writeOffset) ↔
    ∀ i < a.bkv.writeOffset, (i : Int) < a.bkv.memSize := by
  rw [har.reads]
  exact forall_congr' fun i => imp_congr_left List.mem_range

include hdata

theorem splice_owns (hself : .block a.self ∈ others) (hplace : a.ptr ≠ 0 → a.place ∈ others)
    (hin : (bkvAppend env data.bkv a.bkv.toTail).1 = bkvOk →
      (∀ i < a.bkv.writeOffset, (i : Int) < a.bkv.memSize) ∧
        Inside (bkvAppend env data.bkv a.bkv.toTail).2
          (exec env (bkvAppend env data.bkv a.bkv.toTail).2 (.closing .map)).2) :
    Owns (data.goods + others) (splice env data a) fun r own =>
      spliceDico env data.bkv a.bkv = (r.1, r.2.map Handle.bkv) ∧
        ∃ closed, r.2 = some closed ∧ own = closed.goods + others := by
  refine (append_owns (Multiset.mem_add.mpr (.inr hself)) (hdata.takesTail env a.bkv.toTail)
    fun hok hd' _ _ => read_owns (har.readsTail.mpr (hin hok).1)
      fun hptr => Multiset.mem_add.mpr (.inr (hplace hptr))).bind fun data' own hown => ?_
  obtain ⟨rfl, hbkv, -, hgrown⟩ := hown
  dsimp only [spliceDico]
  by_cases hok : (bkvAppend env data.bkv a.bkv.toTail).1 = bkvOk
  · rw [if_neg (not_not_intro hok), if_neg (not_not_intro hok)]
    have hram : data'.Ram :=
      hdata.grown (hgrown hdata.ram) ((append_fd env data.bkv a.bkv.toTail).trans hdata.ram)
    refine ((write_ram hram (hbkv ▸ (hin hok).2)).frame _).bind fun closed own hown => ?_
    obtain ⟨own, rfl, rfl, hclosed, -⟩ := hown
    refine Owns.pure ⟨?_, closed, rfl, rfl⟩
    rw [Option.map_some, hclosed, hbkv]
    rfl
  · rw [if_pos hok, if_pos hok]
    refine Owns.pure ⟨?_, data', rfl, rfl⟩
    rw [Option.map_some, hbkv]

theorem splice_fails (hself : .block a.self ∈ others) (hplace : a.ptr ≠ 0 → a.place ∈ others)
    (hok : (bkvAppend env data.bkv a.bkv.toTail).1 = bkvOk)
    (hout : ¬((∀ i < a.bkv.writeOffset, (i : Int) < a.bkv.memSize) ∧
      Inside (bkvAppend env data.bkv a.bkv.toTail).2
        (exec env (bkvAppend env data.bkv a.bkv.toTail).2 (.closing .map)).2)) :
    Fails (data.goods + others) (splice env data a) := by
  have hsrc : .block a.self ∈ data.goods + others := Multiset.mem_add.mpr (.inr hself)
  by_cases hreads : ∀ i < a.bkv.writeOffset, (i : Int) < a.bkv.memSize
  · refine (append_owns hsrc (hdata.takesTail env a.bkv.toTail) fun _ hd' _ _ =>
      read_owns (har.readsTail.mpr hreads)
        fun hptr => Multiset.mem_add.mpr (.inr (hplace hptr))).bind_fails fun data' own hown => ?_
    obtain ⟨rfl, hbkv, -, hgrown⟩ := hown
    rw [if_neg (not_not_intro hok)]
    have hram : data'.Ram :=
      hdata.grown (hgrown hdata.ram) ((append_fd env data.bkv a.bkv.toTail).trans hdata.ram)
    refine ((write_ram_fails hram fun hin => hout ⟨hreads, ?_⟩).frame _).bind _
    rwa [hbkv] at hin
  · exact (append_fails hsrc hok fun hd' _ _ =>
      (read_fails (mt har.readsTail.mp hreads)).bind _).bind _

end Splice

/-- What is lost besides a document, and without one, when the parser had a dictionary or had
none. -/
structure TextLeft (dico : Bool) (r : Int × Option Handle) (gone : Multiset Resource) : Prop where
  unread : r.2 = none → kinds gone = Multiset.replicate (if dico then 6 else 2) .block
  read : r.2.isSome → kinds gone = Multiset.replicate (if dico then 3 else 0) .block ∨
    dico ∧ r.1 ≠ bkvOk ∧ kinds gone = Multiset.replicate 4 .block
  ok : r.1 = bkvOk → r.2.isSome

/-- The names are appended to the data, or the dictionary is left as it is. -/
theorem appendDico_owns (hj : j.Ram)
    (hin : ∀ d ∈ j.dico, EndInside env j.data.bkv d.handle.bkv) :
    Owns j.goods (appendDico env j) fun r own =>
      givenBy env true j.ctx = (r.1, r.2.map Handle.bkv) ∧
        ∃ gone, own = r.2.elim 0 Handle.goods + gone ∧ TextLeft j.dico.isSome r gone := by
  rw [FromJsonRun.goods, appendDico, givenBy]
  cases hdico : j.dico with
  | none =>
    refine Owns.pure ⟨by rw [FromJsonRun.ctx, hdico]; rfl, 0, rfl, nofun, fun _ => .inl rfl,
      fun _ => rfl⟩
  | some d =>
    have hram := hj.dico d hdico
    obtain ⟨hclose, hsplice⟩ := hin d hdico
    have hgiven : j.ctx.dicoHandle = some (.direct d.handle.bkv) := by
      rw [FromJsonRun.ctx, hdico]
      rfl
    rw [hgiven, add_comm]
    refine ((dicoDestroy_owns hram hclose).frame j.data.goods).bind fun r own hown => ?_
    obtain ⟨l_error, o⟩ := r
    obtain ⟨own, rfl, hpure, hnone, hsome⟩ := hown
    dsimp only
    rw [hpure]
    cases o with
    | none =>
      obtain ⟨hko, hkinds⟩ := hnone rfl
      exact Owns.pure ⟨rfl, own, add_comm .., nofun, fun _ => .inr ⟨rfl, hko, hkinds⟩,
        fun hok => absurd hok hko⟩
    | some a =>
      obtain ⟨rfl, rfl, har⟩ := hsome a rfl
      rw [add_comm]
      refine (splice_owns hj.data har (Multiset.mem_add.mpr (.inl (self_mem_goods a)))
        (fun hptr => Multiset.mem_add.mpr (.inl (place_mem_goods hptr)))
        (hsplice a.bkv hpure)).mono fun r own hown => ?_
      obtain ⟨hpure', closed, hclosed, rfl⟩ := hown
      refine ⟨hpure', _, by rw [hclosed]; rfl, ?_, fun _ => .inl ?_, fun _ => by rw [hclosed]; rfl⟩
      · rw [hclosed]
        nofun
      · rw [kinds_add, har.kinds]
        rfl

theorem appendDico_fails (hj : j.Ram)
    (hout : ¬∀ d ∈ j.dico, EndInside env j.data.bkv d.handle.bkv) :
    Fails j.goods (appendDico env j) := by
  rw [FromJsonRun.goods, appendDico]
  cases hdico : j.dico with
  | none => exact absurd (fun d hd => by rw [hdico] at hd; cases hd) hout
  | some d =>
    have hram := hj.dico d hdico
    have hend : ¬EndInside env j.data.bkv d.handle.bkv := fun hend => hout fun d' hd' => by
      rw [hdico] at hd'
      cases hd'
      exact hend
    rw [add_comm]
    by_cases hclose : Inside d.handle.bkv (exec env d.handle.bkv (.closing .map)).2
    · refine ((dicoDestroy_owns hram hclose).frame j.data.goods).bind_fails fun r own hown => ?_
      obtain ⟨l_error, o⟩ := r
      obtain ⟨own, rfl, hpure, -, hsome⟩ := hown
      have hbad : ∃ a, Wtools.dicoDirectDestroy env d.handle.bkv = (bkvOk, some a) ∧
          (bkvAppend env j.data.bkv a.toTail).1 = bkvOk ∧
          ¬((∀ i < a.writeOffset, (i : Int) < a.memSize) ∧
            Inside (bkvAppend env j.data.bkv a.toTail).2
              (exec env (bkvAppend env j.data.bkv a.toTail).2 (.closing .map)).2) := by
        by_contra hno
        refine hend ⟨hclose, fun a ha hok => ?_⟩
        by_contra hin
        exact hno ⟨a, ha, hok, hin⟩
      obtain ⟨a, ha, hok, hbad⟩ := hbad
      rw [hpure] at ha
      cases o with
      | none => cases (Prod.mk.inj ha).2
      | some b =>
        obtain ⟨-, rfl, har⟩ := hsome b rfl
        obtain rfl : b.bkv = a := Option.some.inj (Prod.mk.inj ha).2
        rw [add_comm]
        exact splice_fails hj.data har (Multiset.mem_add.mpr (.inl (self_mem_goods b)))
          (fun hptr => Multiset.mem_add.mpr (.inl (place_mem_goods hptr))) hok hbad
    · exact ((dicoDestroy_fails hram hclose).frame _).bind _

section Text
variable {float : List UInt8 → UInt32} {text : List JsonEvent}

/-- The dictionary of the context of a run is that of the run. -/
theorem endInside_iff {j : FromJsonRun} : (∀ d ∈ j.dico, EndInside env j.data.bkv d.handle.bkv) ↔
    ∀ h, j.ctx.dicoHandle = some (.direct h) → EndInside env j.ctx.dataHandle h := by
  cases hdico : j.dico with
  | none => simp [FromJsonRun.ctx, hdico]
  | some d => simp [FromJsonRun.ctx, hdico]

theorem readText_owns (hj : j.Ram) (hin : TextInside env float text j.ctx) :
    Owns j.goods (readText env float text j) fun r own => ∃ gone,
      own = r.2.elim 0 Handle.goods + gone ∧ TextLeft j.dico.isSome r gone ∧
        ∃ ok c, yajlParse env float text j.ctx = .ok (ok, c) ∧
          givenBy env ok c = (r.1, r.2.map Handle.bkv) := by
  obtain ⟨hparse, hend⟩ := hin
  refine (parse_owns hj hparse).bind fun r own hown => ?_
  obtain ⟨ok, j'⟩ := r
  obtain ⟨rfl, hj', hrun, hsome⟩ := hown
  cases ok with
  | false =>
    refine Owns.pure ⟨j'.goods, (zero_add _).symm, ⟨fun _ => ?_, nofun, ?_⟩, false, _, hrun, rfl⟩
    · rw [← hsome, FromJsonRun.goods, kinds_add, hj'.data.kinds]
      cases hdico : j'.dico with
      | none => rfl
      | some d =>
        rw [dicoGoods, Option.elim_some, DirectDico.goods, kinds_add, (hj'.dico d hdico).kinds]
        rfl
    · exact fun hok => absurd hok (show bkvInvArg ≠ bkvOk by decide)
  | true =>
    refine (appendDico_owns hj' (endInside_iff.mpr fun h hh => hend _ h hrun hh)).mono
      fun r own hown => ?_
    obtain ⟨hgiven, gone, rfl, hleft⟩ := hown
    exact ⟨gone, rfl, hsome ▸ hleft, true, _, hrun, hgiven⟩

theorem readText_fails (hj : j.Ram) (hout : ¬TextInside env float text j.ctx) :
    Fails j.goods (readText env float text j) := by
  by_cases hparse : ParseInside env float text j.ctx
  · refine (parse_owns hj hparse).bind_fails fun r own hown => ?_
    obtain ⟨ok, j'⟩ := r
    obtain ⟨rfl, hj', hrun, -⟩ := hown
    cases ok with
    | false =>
      refine absurd ⟨hparse, fun c h hc _ => ?_⟩ hout
      rw [hrun] at hc
      cases hc
    | true =>
      refine appendDico_fails hj' fun hend => hout ⟨hparse, fun c h hc hh => ?_⟩
      rw [hrun] at hc
      cases hc
      exact endInside_iff.mp hend h hh
  · exact (parse_fails hj hparse).bind _

end Text

end End

section Whole
variable {a : Answers} {float : List UInt8 → UInt32} {text : List JsonEvent}

/-- What `bkv_from_json` leaves besides the handle it gives. -/
structure Left (a : Answers) (r : Int × Option Handle) (gone : Multiset Resource) : Prop where
  noData : ¬Creates a.data → r.2 = none ∧ kinds gone = bufferKinds a.data ramCreate
  noNames : Creates a.data → ¬Creates a.names → r.2 = none ∧
    kinds gone = Multiset.replicate 2 .block + bufferKinds a.names ramCreate
  noDirect : Creates a.data → Creates a.names → a.direct = false → r.2 = none ∧
    kinds gone = Multiset.replicate 4 .block
  unread : a.Reach → r.2 = none → kinds gone = Multiset.replicate (if a.dico then 6 else 5) .block
  read : a.Reach → r.2.isSome → kinds gone = Multiset.replicate 3 .block ∨
    a.dico ∧ r.1 ≠ bkvOk ∧ kinds gone = Multiset.replicate 4 .block
  ok : r.1 = bkvOk → r.2.isSome

/-- What the run gives is what `bkv_from_json` gives without a system. -/
def Agrees (a : Answers) (float : List UInt8 → UInt32) (text : List JsonEvent)
    (r : Int × Option Handle) : Prop :=
  ∀ env heap, a = .of env →
    bkvFromJson env heap float .direct text = .ok (r.1, r.2.map Handle.bkv)

theorem noData_owns (hcr : ¬Creates a.data) : Owns 0 (fromJson a float text) fun r own =>
    ∃ gone, own = r.2.elim 0 Handle.goods + gone ∧ Left a r gone ∧ Agrees a float text r := by
  refine (create_refused hcr 0).bind fun r own hown => ?_
  obtain ⟨l_error, rfl, hko, hkinds, hpure⟩ := hown
  refine Owns.pure ⟨own, (zero_add _).symm, ⟨fun _ => ⟨rfl, hkinds⟩, fun h => absurd h hcr,
    fun h => absurd h hcr, fun h => absurd h.data hcr, nofun, fun h => absurd h hko⟩, ?_⟩
  rintro env heap rfl
  have hnone := (bkvCreate_refused hcr (Prod.ext hpure rfl)).2
  have hcreate : bkvCreate env 0 { bkvCreateInit with createType := .workInRam } =
    (l_error, none) := Prod.ext hpure hnone
  rw [bkvFromJson, hcreate]
  rfl

/-- Without memory for the dictionary the data handle is lost. -/
theorem noDico_owns (hcr : Creates a.data) (hno : ¬(Creates a.names ∧ a.direct)) :
    Owns 0 (fromJson a float text) fun r own => ∃ gone,
      own = r.2.elim 0 Handle.goods + gone ∧ Left a r gone ∧ Agrees a float text r := by
  refine (create_ram hcr 0).bind fun r own hown => ?_
  obtain ⟨data, rfl, rfl, hdata, -⟩ := hown
  have hagrees : Agrees a float text (bkvInvArg, none) := by
    rintro env heap rfl
    exact absurd ⟨hcr, hcr.mallocHandle⟩ hno
  have hnot : ¬a.Reach := fun h => hno ⟨h.names, h.direct⟩
  by_cases hnames : Creates a.names
  · refine ((dicoCreate_owns hnames).beside data.goods).bind fun r own hown => ?_
    obtain ⟨own, rfl, ⟨hdirect, rfl, hkinds⟩ | ⟨hdirect, -⟩⟩ := hown
    · refine Owns.pure ⟨_, (zero_add _).symm, ⟨fun h => absurd hcr h, fun _ h => absurd hnames h,
        fun _ _ _ => ⟨rfl, ?_⟩, fun h => absurd h hnot, nofun, nofun⟩, hagrees⟩
      rw [kinds_add, hdata.kinds, hkinds]
      rfl
    · exact absurd ⟨hnames, hdirect⟩ hno
  · refine ((dicoCreate_refused hnames).beside data.goods).bind fun r own hown => ?_
    obtain ⟨own, rfl, rfl, hkinds⟩ := hown
    refine Owns.pure ⟨_, (zero_add _).symm, ⟨fun h => absurd hcr h, fun _ _ => ⟨rfl, ?_⟩,
      fun _ h => absurd h hnames, fun h => absurd h hnot, nofun, nofun⟩, hagrees⟩
    rw [kinds_add, hdata.kinds, hkinds, add_comm]

/-- What the parser is given. -/
theorem startOf_eq {data : Handle} {o : Option DirectDico} {gone : Multiset Resource}
    (hbkv : data.bkv = freshHandle a.data 0 (-1)) (hmade : DicoMade a o gone) :
    (⟨data, o, ⟨data.bkv, none, 0, false, 1, a.rest.uninitKey⟩⟩ : FromJsonRun).ctx = startOf a := by
  rw [FromJsonRun.ctx, startOf, hmade.names, hbkv]

theorem DicoMade.isSome {o : Option DirectDico} {gone : Multiset Resource}
    (hmade : DicoMade a o gone) : o.isSome = a.dico := by
  rw [← Option.isSome_map, hmade.names]
  cases a.dico with
  | false => rfl
  | true => rfl

theorem TextLeft.left {r : Int × Option Handle} {o : Option DirectDico}
    {gone lost : Multiset Resource} (ha : a.Reach) (hmade : DicoMade a o lost)
    (hleft : TextLeft o.isSome r gone) : Left a r (gone + lost) where
  noData h := absurd ha.data h
  noNames _ h := absurd ha.names h
  noDirect _ _ h := absurd (h.symm.trans ha.direct) (by decide)
  unread _ hnone := by
    rw [kinds_add, hleft.unread hnone, hmade.lost, hmade.isSome]
    cases a.dico with
    | false => rfl
    | true => rfl
  read _ hsome := by
    rw [kinds_add, hmade.lost]
    have hread := hleft.read hsome
    rw [hmade.isSome] at hread
    cases hdico : a.dico with
    | false =>
      rw [hdico] at hread
      rcases hread with hkinds | ⟨hd, -⟩
      · rw [hkinds]
        exact .inl rfl
      · cases hd
    | true =>
      rw [hdico] at hread
      simpa using hread
  ok := hleft.ok

theorem agrees_of {r : Int × Option Handle} {ok : Bool} {c : FromJsonCtx} (ha : a.Reach)
    (hrun : yajlParse a.rest float text (startOf a) = .ok (ok, c))
    (hgiven : givenBy a.rest ok c = (r.1, r.2.map Handle.bkv)) : Agrees a float text r := by
  rintro env heap rfl
  have hcr : Creates env := ha.data
  rw [← hgiven]
  obtain ⟨x, hx⟩ := direct_returns heap float hcr text
  rcases bkvFromJson_created hcr hx with ⟨-, htype⟩ | ⟨d₀, ok', c', hcreate, -, hrun', hno, hyes⟩
  · cases htype
  have hopen : bkvKvMapOpen env (freshHandle env 1 (-1)) bkvDicoKey = (bkvOk, namesOf (.of env)) :=
    (namesOf_opened (a := .of env) ha.names).1
  have hnames : bkvDicoCreate env 1 heap .direct =
      .ok (bkvOk, some (.direct (namesOf (.of env)))) := by
    simp only [bkvDicoCreate, Wtools.dicoDirectCreate, hcr.create, hopen, hcr.mallocHandle]
    rfl
  rw [hnames] at hcreate
  cases hcreate
  have hstart : startOf (.of env) = startCtx env (.direct (namesOf (.of env))) := by
    rw [startOf, if_pos (show (Answers.of env).dico = true from hcr.mallocHandle)]
    rfl
  rw [hstart] at hrun
  cases hrun.symm.trans hrun'
  rw [hx]
  cases ok with
  | false => exact congrArg _ (hno rfl)
  | true =>
    obtain ⟨ok', c', h, hrun', hd⟩ := direct_parse env float
      (show (startCtx env (.direct (namesOf (.of env)))).dicoHandle = _ from rfl) text
    cases hrun.symm.trans hrun'
    obtain ⟨y, hy, rfl⟩ := hyes rfl _ hd
    cases hy
    rw [givenBy, hd]
    rfl

theorem reach_owns (ha : a.Reach) (hin : TextInside a.rest float text (startOf a)) :
    Owns 0 (fromJson a float text) fun r own => ∃ gone,
      own = r.2.elim 0 Handle.goods + gone ∧ Left a r gone ∧ Agrees a float text r := by
  refine (create_ram ha.data 0).bind fun r own hown => ?_
  obtain ⟨data, rfl, rfl, hdata, hbkv⟩ := hown
  refine ((dicoCreate_owns ha.names).beside data.goods).bind fun r own hown => ?_
  obtain ⟨l_error, o⟩ := r
  obtain ⟨own, rfl, ⟨hdirect, -⟩ | ⟨-, rfl, lost, rfl, hmade⟩⟩ := hown
  · exact absurd (hdirect.symm.trans ha.direct) (by decide)
  have hstart := startOf_eq hbkv hmade
  rw [← hstart] at hin
  rw [add_right_comm, add_comm (dicoGoods o)]
  refine ((readText_owns ⟨hdata, hmade.ram⟩ hin).frame lost).mono fun r own hown => ?_
  obtain ⟨own, rfl, gone, rfl, hleft, ok, c, hrun, hgiven⟩ := hown
  rw [hstart] at hrun
  exact ⟨gone + lost, add_assoc .., hleft.left ha hmade, agrees_of ha hrun hgiven⟩

theorem reach_fails (ha : a.Reach) (hout : ¬TextInside a.rest float text (startOf a)) :
    Fails 0 (fromJson a float text) := by
  refine (create_ram ha.data 0).bind_fails fun r own hown => ?_
  obtain ⟨data, rfl, rfl, hdata, hbkv⟩ := hown
  refine ((dicoCreate_owns ha.names).beside data.goods).bind_fails fun r own hown => ?_
  obtain ⟨l_error, o⟩ := r
  obtain ⟨own, rfl, ⟨hdirect, -⟩ | ⟨-, rfl, lost, rfl, hmade⟩⟩ := hown
  · exact absurd (hdirect.symm.trans ha.direct) (by decide)
  rw [← startOf_eq hbkv hmade] at hout
  rw [add_right_comm, add_comm (dicoGoods o)]
  exact (readText_fails ⟨hdata, hmade.ram⟩ hout).frame lost

/-- Whatever the text and whatever each allocation answers, `bkv_from_json` either has an access
outside of its buffers or to a dictionary that is not there, or gives back only the context of the
plug. -/
theorem from_json_loses (a : Answers) (float : List UInt8 → UInt32) (text : List JsonEvent)
    (s : Process) : ((fromJson a float text s).isSome ↔ JsonInside a float text) ∧
      ∀ r s', fromJson a float text s = some (r, s') → ∃ gone,
        s'.goods = r.2.elim 0 Handle.goods + gone + s.goods ∧ Left a r gone ∧
          Agrees a float text r := by
  by_cases hin : JsonInside a float text
  · have howns : Owns 0 (fromJson a float text) fun r own => ∃ gone,
        own = r.2.elim 0 Handle.goods + gone ∧ Left a r gone ∧ Agrees a float text r := by
      by_cases ha : a.Reach
      · exact reach_owns ha (hin ha)
      · by_cases hcr : Creates a.data
        · exact noDico_owns hcr fun h => ha ⟨hcr, h.1, h.2⟩
        · exact noData_owns hcr
    obtain ⟨r₀, s₀, own, hrun₀, hs₀, gone, rfl, hleft, hagrees⟩ :=
      howns s s.goods (zero_add _).symm
    refine ⟨iff_of_true (by rw [hrun₀]; rfl) hin, fun r s' hrun => ?_⟩
    cases hrun₀.symm.trans hrun
    exact ⟨gone, hs₀, hleft, hagrees⟩
  · obtain ⟨ha, hout⟩ := Classical.not_imp.mp hin
    have hfail := reach_fails ha hout s s.goods (zero_add _).symm
    refine ⟨iff_of_false (by rw [hfail]; decide) hin, fun r s' hrun => ?_⟩
    rw [hfail] at hrun
    cases hrun

end Whole

def oneName : List JsonEvent := [.startMap, .mapKey [0x61], .boolean true, .endMap]

/-- Without memory for `dico_ctx_t` the first name is looked up through NULL. -/
theorem from_json_loses_name : (∃ r s' gone,
    fromJson (.of calmEnv) (fun _ => 0) oneName ⟨0, 0⟩ = some (r, s') ∧ r.1 = bkvOk ∧
      s'.goods = r.2.elim 0 Handle.goods + gone + 0 ∧ Left (.of calmEnv) r gone) ∧
    ¬JsonInside { Answers.of calmEnv with dico := false } (fun _ => 0) oneName := by
  have hok : (fromJson (.of calmEnv) (fun _ => 0) oneName ⟨0, 0⟩).map (·.1.1) = some bkvOk := rfl
  obtain ⟨⟨r, s'⟩, hrun, hr⟩ := Option.map_eq_some_iff.mp hok
  obtain ⟨gone, hgoods, hleft, -⟩ := (from_json_loses _ _ _ _).2 r s' hrun
  have hnone : ¬(fromJson { Answers.of calmEnv with dico := false } (fun _ => 0) oneName
    ⟨0, 0⟩).isSome := Bool.false_ne_true
  exact ⟨⟨r, s', gone, hrun, hr, hgoods, hleft⟩, mt (from_json_loses _ _ _ _).1.mpr hnone⟩

end Wtools.Life
