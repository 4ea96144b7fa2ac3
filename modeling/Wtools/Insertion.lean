import Wtools.FileRun
import Wtools.ReadBack

/-!
# Insertion into a closed document

`bkv_write_offset_set` moves the write offset of a handle on a file behind a value that was
looked up and puts a copy of the rest of the mapping aside; `bkv_finalize` appends the copy
after the records added in between. Nothing takes the copy out of the handle again, so the
handle stays in insertion mode.
-/

namespace Wtools
open ByteMemory Forest

/-- `bkv_write_offset_set`; `id` numbers the handle of the copy, and `p_val` is moved too. -/
def bkvWriteOffsetSet (env : Env) (id : Nat) (h : Bkv) (p_val : BkvVal) : Int × Bkv × BkvVal :=
  if h.endHdl.isSome then (bkvInvArg, h, p_val)
  else
    let l_offset : Int := p_val.priv + p_val.bkvKeyLength
    let p_val := { p_val with priv := l_offset.toNat }
    if l_offset < 0 then (bkvInvArg, h, p_val)
    else if l_offset > h.memSize then (bkvInvArg, h, p_val)
    else
      match bkvCreate env id { bkvCreateInit with
        createType := .unsafeInputBuffer
        inputPtr := fun i => h.ptr (l_offset.toNat + i)
        inputPtrLength := (h.memSize - l_offset).toNat } with
      | (_, none) => (bkvInvArg, h, p_val)
      | (l_ret, some l_end_bkv_hdl) =>
        if l_ret ≠ bkvOk then (bkvInvArg, h, p_val)
        else (bkvOk, { h with
          endHdl := some l_end_bkv_hdl.toTail
          writeOffset := l_offset.toNat
          deepOffset := p_val.deepOffset
          deepValue := h.deepValue.set p_val.deepOffset mapKey
          state := .inMap }, p_val)

/-- The mapping of a handle on a file, as memory that may be read. -/
def mapping (h : Bkv) : Zone := ⟨h.ptr, h.memSize.toNat⟩

/-- A handle on a file that holds a closed document. -/
structure OnFile (h : Bkv) (key : UInt16) (body : Items) : Prop where
  file : h.fd ≠ -1
  closed : h.state = .term
  legal : Legal .map body
  keys : ∀ c ∈ calls (.node (.map, key) body .nil), c.Fits
  laid : ByteMemory.Fits h.ptr 0 (enc (.node (.map, key) body .nil))
  room : (size (.node (.map, key) body .nil) : Int) ≤ h.memSize

variable {env : Env} {h h' : Bkv}

theorem onFile_of_run {id : Nat} {p : BkvCreate} {h₀ : Bkv} {cs : List Call}
    (hp : p.createType = .openFileCreatAndWrite) (hcreate : bkvCreate env id p = (bkvOk, some h₀))
    (hr : runOk env h₀ cs = some h) (ht : h.state = .term) (hfits : ∀ c ∈ cs, c.Fits)
    (hroom : (h.writeOffset : Int) ≤ h.memSize) :
    ∃ key body, cs = calls (.node (.map, key) body .nil) ∧ OnFile h key body := by
  obtain ⟨hfd, hs⟩ := created_inRam hp hcreate
  obtain ⟨hrun, hkeep⟩ := runOk_inRam hfd hr
  obtain ⟨-, key, body, hl, rfl, hlaid, hw⟩ := hs.closed hrun ht
  exact ⟨key, body, rfl, hkeep ▸ hfd, ht, hl, hfits, hlaid, hw ▸ hroom⟩

/-- The invocations of a traversal of the root that asks for nothing. -/
def rootEvents (z : Zone) : Except Fault (Int × List Event) := do
  let (_, root) ← bkvValInit z bkvValInitValue 0
  bkvValForeach z root (fun e es => .ok (actionNone, es ++ [e])) []

/-- The value at a path of keys, from the root. -/
def rootLookup (z : Zone) (path : List UInt16) (p_val : Cells BkvVal) :
    Except Fault (Int × BkvVal) := do
  let (_, root) ← bkvValInit z bkvValInitValue 0
  let (l_ret, vals) ← bkvValGet2 z root (some (path ++ [bkvKeyInvalid])) 1 p_val
  return (l_ret, vals 0)

/-- The calls of an insertion: the write offset is set behind a value, keyed u16 values are added,
and the handle is finalized. There is a handle if all of them succeed. -/
def insertion (env : Env) (id : Nat) (h : Bkv) (p_val : BkvVal) (added : List (UInt16 × UInt16)) :
    Option Bkv := do
  let (l_ret, h, _) := bkvWriteOffsetSet env id h p_val
  if l_ret ≠ bkvOk then none
  else
    let h ← runOk env h (added.map fun a => .add (.keyed a.1 (.u16 a.2)))
    let (l_ret, h) := bkvFinalize env h
    if l_ret ≠ bkvOk then none else h

/-- An insertion behind a number of a closed document. -/
structure Insertion (env : Env) (h : Bkv) (val : BkvVal) (added : List (UInt16 × UInt16))
    (final : Bkv) : Prop where
  document : ∃ key body, OnFile h key body
  found : ∃ path p_val, rootLookup (mapping h) path p_val = .ok (bkvOk, val)
  number : val.type = .int16 ∨ val.type = .int32 ∨ val.type = .int64
  nonempty : added ≠ []
  steps : ∃ id, insertion env id h val added = some final

/-- What an invocation shows, and after the number at `p` what the added members should. -/
def Event.withAdded (z : Zone) (p : Nat) (added : List (UInt16 × UInt16)) (e : Event) : List Seen :=
  e.seen z :: match e with
    | .uint16 p_ptr deep _ _ | .uint32 p_ptr deep _ _ | .uint64 p_ptr deep _ _ =>
      if p_ptr = p then added.map fun a => .uint16 deep a.1 a.2 else []
    | _ => []

/-- Values of one type that show the same. -/
def SameValue (z z' : Zone) (v v' : BkvVal) : Prop :=
  v.type = v'.type ∧ match v.u, v'.u with
    | .string str len, .string str' len' => z.slice? str len = z'.slice? str' len'
    | .object _, .object _ => True
    | u, u' => u = u'

/-- What an insertion is for. -/
structure Inserted (h : Bkv) (val : BkvVal) (added : List (UInt16 × UInt16))
    (final : Bkv) : Prop where
  callbacks : ∃ es es', rootEvents (mapping h) = .ok (bkvOk, es) ∧
    rootEvents (mapping final) = .ok (bkvOk, es') ∧
    es'.map (Event.seen (mapping final)) = es.flatMap (Event.withAdded (mapping h) val.priv added)
  lookups : ∀ path p_val v, rootLookup (mapping h) path p_val = .ok (bkvOk, v) →
    ∃ v', rootLookup (mapping final) path p_val = .ok (bkvOk, v') ∧
      SameValue (mapping h) (mapping final) v v'
  inactive : bkvIsInertionModeActive final = false

theorem offsetSet_endHdl {id : Nat} {val val' : BkvVal}
    (hset : bkvWriteOffsetSet env id h val = (bkvOk, h', val')) :
    h'.fd = h.fd ∧ h'.endHdl.isSome := by
  have hno : bkvInvArg ≠ bkvOk := by decide
  rw [bkvWriteOffsetSet] at hset
  split at hset
  · exact absurd (congrArg Prod.fst hset) hno
  dsimp only at hset
  split at hset
  · exact absurd (congrArg Prod.fst hset) hno
  split at hset
  · exact absurd (congrArg Prod.fst hset) hno
  split at hset
  · exact absurd (congrArg Prod.fst hset) hno
  split at hset
  · exact absurd (congrArg Prod.fst hset) hno
  · cases hset
    exact ⟨rfl, rfl⟩

theorem after_endHdl (env : Env) (h : Bkv) (c : Call) : (h.after env c).endHdl = h.endHdl := by
  cases c with
  | opening k key => rfl
  | closing k => cases k <;> rfl
  | add e =>
    rw [Bkv.after, Bkv.add]
    split <;> rfl

theorem runOk_endHdl (hfd : h.fd ≠ -1) {cs : List Call} (hr : runOk env h cs = some h') :
    h'.endHdl = h.endHdl := by
  induction cs generalizing h with
  | nil =>
    cases hr
    rfl
  | cons c cs ih =>
    rw [runOk] at hr
    split at hr
    · rename_i hok
      obtain ⟨hsame, hkeep⟩ := exec_inRam env hfd c hok
      rw [ih (hkeep ▸ hfd) hr]
      rw [exec_eq env.paged (h := h.inRam) rfl] at hsame
      split at hsame
      · cases hsame
      split at hsame
      · cases hsame
      have hend := congrArg (fun r => r.2.endHdl) hsame
      exact hend.symm.trans (after_endHdl env.paged h.inRam c)
    · cases hr

theorem append_endHdl (env : Env) (h : Bkv) (a : Tail) :
    (bkvAppend env h a).2.endHdl = h.endHdl := by
  rcases bkvAppend_cases env h a with ⟨-, hkept⟩ | ⟨n, happ⟩
  · rw [hkept]
  · rw [happ]
    rfl

theorem finalize_endHdl {r : Int} (hf : bkvFinalize env h = (r, some h')) :
    h'.endHdl = h.endHdl := by
  have hkept : ∀ g : Bkv, (if g.fd ≠ -1 then (bkvFileTruncate env g.fd g.memSize, some g)
      else (0, none)) = (r, some h') → h' = g := by
    intro g hg
    split at hg
    · exact (Option.some.inj (congrArg Prod.snd hg)).symm
    · cases congrArg Prod.snd hg
  cases hend : h.endHdl with
  | none =>
    rw [bkvFinalize, hend] at hf
    rw [hkept _ hf, hend]
  | some e =>
    rw [bkvFinalize, hend] at hf
    rw [hkept _ hf, append_endHdl, hend]

/-- The handle is still in insertion mode after it was finalized. -/
theorem insertion_stays {id : Nat} {val : BkvVal} {added : List (UInt16 × UInt16)} {final : Bkv}
    (hfd : h.fd ≠ -1) (hi : insertion env id h val added = some final) :
    bkvIsInertionModeActive final := by
  rw [insertion] at hi
  split at hi
  rename_i l_ret opened p_val hset
  split at hi
  · cases hi
  · rename_i hok
    obtain rfl := not_not.mp hok
    obtain ⟨hkeep, hsome⟩ := offsetSet_endHdl hset
    obtain ⟨written, hrun, hfin⟩ := Option.bind_eq_some_iff.mp hi
    dsimp only at hfin
    split at hfin
    · cases hfin
    · rw [bkvIsInertionModeActive, finalize_endHdl (Prod.ext rfl hfin), runOk_endHdl (hkeep ▸ hfd) hrun]
      exact hsome

/-- No insertion into a closed document does what it is for. -/
theorem insertion_never_completes (env : Env) (h : Bkv) (val : BkvVal)
    (added : List (UInt16 × UInt16)) (final : Bkv) (hi : Insertion env h val added final) :
    ¬Inserted h val added final := by
  intro hdone
  obtain ⟨key, body, hdoc⟩ := hi.document
  obtain ⟨id, hsteps⟩ := hi.steps
  have hactive := insertion_stays hdoc.file hsteps
  rw [hdone.inactive] at hactive
  cases hactive

def newFile : Bkv :=
  (bkvCreate calmEnv 0 { bkvCreateInit with
    createType := .openFileCreatAndWrite, filename := "test_file.db",
    mode := 0x1FF }).2.getD ramHandle

/-- A file in which a document of a u32 and a u16 was written. -/
def numbersFile : Bkv :=
  (runOk calmEnv newFile [.opening .map 0, .add (.keyed 5 (.u32 7)), .add (.keyed 6 (.u16 9)),
    .closing .map]).getD ramHandle

theorem numbersFile_onFile : ∃ key body, OnFile numbersFile key body := by
  have hcreate : bkvCreate calmEnv 0 { bkvCreateInit with
      createType := .openFileCreatAndWrite, filename := "test_file.db", mode := 0x1FF } =
        (bkvOk, some newFile) := rfl
  have hrun : runOk calmEnv newFile [.opening .map 0, .add (.keyed 5 (.u32 7)),
      .add (.keyed 6 (.u16 9)), .closing .map] = some numbersFile := rfl
  obtain ⟨key, body, -, h⟩ :=
    onFile_of_run rfl hcreate hrun rfl (by simp [Call.Fits]; decide) (by decide)
  exact ⟨key, body, h⟩

/-- Behind a u32 the record is split: the traversal takes the key of the new member for the upper
half of the value, and ends there. -/
theorem insertion_splits_u32 :
    ∃ val final,
      rootLookup (mapping numbersFile) [5] (fun _ => bkvValInitValue) = .ok (bkvOk, val) ∧
      Insertion calmEnv numbersFile val [(8, 1)] final ∧
      rootEvents (mapping numbersFile) =
        .ok (bkvOk, [.mapOpen 0 0, .uint32 4 1 5 7, .uint16 10 1 6 9, .mapClose 0]) ∧
      rootEvents (mapping final) = .ok (bkvOk, [.mapOpen 0 0, .uint32 4 1 5 0x5008]) ∧
      ¬Inserted numbersFile val [(8, 1)] final := by
  have hfound : rootLookup (mapping numbersFile) [5] (fun _ => bkvValInitValue) =
      .ok (bkvOk, ⟨.int32, bkvKeyInvalid, .int32 7, 4, 4, 1⟩) := by decide +kernel
  have hrun : (insertion calmEnv 1 numbersFile ⟨.int32, bkvKeyInvalid, .int32 7, 4, 4, 1⟩
      [(8, 1)]).map (fun final => rootEvents (mapping final)) =
        some (.ok (bkvOk, [.mapOpen 0 0, .uint32 4 1 5 0x5008])) := by decide +kernel
  have hbefore : rootEvents (mapping numbersFile) =
      .ok (bkvOk, [.mapOpen 0 0, .uint32 4 1 5 7, .uint16 10 1 6 9, .mapClose 0]) := by
    decide +kernel
  obtain ⟨final, hsteps, hafter⟩ := Option.map_eq_some_iff.mp hrun
  refine ⟨_, final, hfound, ⟨numbersFile_onFile, ⟨_, _, hfound⟩, by simp, by simp, 1, hsteps⟩,
    hbefore, hafter, ?_⟩
  rintro ⟨⟨es, es', hes, hes', hsame⟩, -, -⟩
  rw [hbefore] at hes
  rw [hafter] at hes'
  cases hes
  cases hes'
  have hlength := congrArg List.length hsame
  simp [Event.withAdded] at hlength

/-- Behind a u16 all members are read, but the handle stays in insertion mode. -/
theorem insertion_never_completes_u16 :
    ∃ val final,
      rootLookup (mapping numbersFile) [6] (fun _ => bkvValInitValue) = .ok (bkvOk, val) ∧
      insertion calmEnv 1 numbersFile val [(8, 1)] = some final ∧
      rootEvents (mapping final) = .ok (bkvOk, [.mapOpen 0 0, .uint32 4 1 5 7, .uint16 10 1 6 9,
        .uint16 14 1 8 1, .mapClose 0]) ∧
      ¬Inserted numbersFile val [(8, 1)] final := by
  have hfound : rootLookup (mapping numbersFile) [6] (fun _ => bkvValInitValue) =
      .ok (bkvOk, ⟨.int16, bkvKeyInvalid, .int16 9, 10, 4, 1⟩) := by decide +kernel
  have hrun : (insertion calmEnv 1 numbersFile ⟨.int16, bkvKeyInvalid, .int16 9, 10, 4, 1⟩
      [(8, 1)]).map (fun final => rootEvents (mapping final)) = some (.ok (bkvOk, [.mapOpen 0 0,
        .uint32 4 1 5 7, .uint16 10 1 6 9, .uint16 14 1 8 1, .mapClose 0])) := by decide +kernel
  obtain ⟨final, hsteps, hafter⟩ := Option.map_eq_some_iff.mp hrun
  exact ⟨_, final, hfound, hsteps, hafter,
    insertion_never_completes calmEnv numbersFile _ [(8, 1)] final
    ⟨numbersFile_onFile, ⟨_, _, hfound⟩, by simp, by simp, 1, hsteps⟩⟩

end Wtools
