import Wtools.Records

/-!
# Bytes that no call has written

What a run of the writer leaves in the buffer beyond what it stored is what was there before:
zeros in the first chunk, and after that what `realloc` happened to give. The second byte of the
close record of a map is never stored, so it is one of these in every document that is longer
than the first chunk.
-/

namespace Wtools
open ByteMemory Forest

/-- A handle on a buffer whose bytes are those of `m` where nothing was stored. -/
def Bkv.over (h : Bkv) (m : Mem) : Bkv := { h with ptr := overlay m h.stores h.ptr }

/-- The bytes of a zone. -/
def bytesOf (z : Zone) : List UInt8 := slice z.mem 0 z.size

variable {env : Env} {h h' : Bkv} {m : Mem}

theorem closeMem_overlay (k : Kind) (as : List Nat) (m' : Mem) (w o n : Nat) :
    k.closeMem (overlay m as m') w o n = overlay m (as ++ k.closeStores w o) (k.closeMem m' w o n) := by
  cases k with
  | map =>
    simp only [Kind.closeMem, put_overlay, List.append_assoc]
    rfl
  | array =>
    simp only [Kind.closeMem, put_overlay, List.append_assoc]
    rfl

theorem grow_over (env : Env) (h : Bkv) (m : Mem) (n : Nat) :
    grow env (h.over m) n = (grow env h n).over m := by
  have hsize : (bkvPrepare env (h.over m) n).2.memSize = (bkvPrepare env h n).2.memSize := by
    simp only [bkvPrepare, apply_ite Prod.snd, apply_ite Bkv.memSize]
    rfl
  rw [grow, hsize]
  rfl

theorem emit_over (h : Bkv) (m : Mem) (bs : List UInt8) :
    (h.over m).emit bs = (h.emit bs).over m := by
  simp only [Bkv.over, Bkv.emit, Bkv.store, Bkv.skip, put_overlay]

theorem after_over (env : Env) (h : Bkv) (m : Mem) (c : Call) :
    (h.over m).after env c = (h.after env c).over m := by
  cases c with
  | opening k key =>
    simp only [Bkv.after, Bkv.openIn, grow_over, emit_over]
    rfl
  | closing k =>
    have hptr : (h.over m).ptr = overlay m h.stores h.ptr := rfl
    simp only [Bkv.after, Bkv.closeIn, grow_over, hptr, closeMem_overlay]
    rfl
  | add e =>
    simp only [Bkv.after, Bkv.add, grow_over, emit_over]
    split <;> rfl

theorem exec_over (env : Env) (hfd : h.fd = -1) (m : Mem) (c : Call) :
    exec env (h.over m) c = ((exec env h c).1, (exec env h c).2.over m) := by
  have hcheck : checkFor (h.over m) c = checkFor h c := by cases c <;> rfl
  rw [exec_eq env hfd, exec_eq env (h := h.over m) hfd, hcheck, after_over]
  split
  · rfl
  · split <;> rfl

/-- Surroundings with other contents of fresh memory. -/
def Env.withJunk (env : Env) (junk : Nat → Mem) : Env := { env with junk := junk }

theorem exec_withJunk (env : Env) (junk : Nat → Mem) (h : Bkv) (c : Call) :
    exec (env.withJunk junk) h c = exec env h c := by
  rcases c with ⟨_ | _, key⟩ | ⟨_ | _⟩ | ⟨key, v⟩ | v
  · rfl
  · rfl
  · rfl
  · rfl
  · cases v <;> rfl
  · cases v <;> rfl

theorem runOk_over (junk : Nat → Mem) {p : Position} (hs : Sim h p) (m : Mem) {cs : List Call}
    (hr : runOk env h cs = some h') :
    runOk (env.withJunk junk) (h.over m) cs = some (h'.over m) := by
  induction cs generalizing h p with
  | nil =>
    cases hr
    rfl
  | cons c cs ih =>
    rw [runOk] at hr
    split at hr
    · rename_i hok
      rw [runOk, exec_withJunk, exec_over env hs.ram, if_pos hok]
      exact ih (hs.exec env c) hr
    · cases hr

theorem runOk_stores {p : Position} (hs : Sim h p) (hlt : ∀ i ∈ h.stores, i < h.writeOffset)
    {cs : List Call} (hr : runOk env h cs = some h') : ∀ i ∈ h'.stores, i < h'.writeOffset := by
  induction cs generalizing h p with
  | nil =>
    cases hr
    exact hlt
  | cons c cs ih =>
    obtain ⟨p', hn, hs', hr'⟩ := hs.runOk_cons hr
    obtain ⟨-, hw, hst, -, -⟩ := after_room env h c
    have hnew := callStores_lt hs (advance_eq_some.mp (next?_eq_some.mp hn).2)
    refine ih hs' ?_ hr'
    intro i hi
    rw [hst, List.mem_append] at hi
    rw [hw]
    rcases hi with hi | hi
    · exact Nat.lt_add_right _ (hlt i hi)
    · exact hnew i hi

theorem runOk_snoc {cs : List Call} {c : Call} (hr : runOk env h (cs ++ [c]) = some h') :
    ∃ g, runOk env h cs = some g ∧ exec env g c = (bkvOk, h') := by
  induction cs generalizing h with
  | nil =>
    rw [List.nil_append, runOk] at hr
    split at hr
    · rename_i hok
      cases hr
      exact ⟨h, rfl, Prod.ext hok rfl⟩
    · cases hr
  | cons d cs ih =>
    rw [List.cons_append, runOk] at hr
    split at hr
    · rename_i hok
      obtain ⟨g, hg, hx⟩ := ih hr
      exact ⟨g, by rw [runOk, if_pos hok, hg], hx⟩
    · cases hr

/-- The last byte of a document is the second one of the close record of its root. -/
theorem last_unwritten {h₀ : Bkv} (hs₀ : Sim h₀ .start) (hnone : h₀.stores = []) {cs : List Call}
    (hr : runOk env h₀ cs = some h) (ht : h.state = .term) :
    0 < h.writeOffset ∧ h.writeOffset - 1 ∉ h.stores := by
  obtain ⟨-, key, body, hb, rfl, -⟩ := hs₀.closed hr ht
  rw [calls_node, calls_nil, ← List.cons_append] at hr
  obtain ⟨g, hg, hx⟩ := runOk_snoc hr
  obtain ⟨p, hp, hs, -⟩ := hs₀.runOk env hg
  have hbelow := runOk_stores hs₀ (by simp [hnone]) hg
  rw [track, advance, Option.bind_some, track_calls hb] at hp
  cases hp
  rw [exec_closing env hs.ram] at hx
  split at hx
  · cases hx
  · cases hx
    obtain ⟨-, hd, -⟩ := hs.controls
    obtain ⟨-, -, hw⟩ := hs.laid
    rw [frame_pattern_length] at hw
    replace hd : g.deepOffset = 0 := hd
    replace hw : g.writeOffset = g.mapOffset 0 + (4 + size (Forest.nil ++ body)) := hw
    refine ⟨Nat.succ_pos _, ?_⟩
    simp only [Bkv.closeIn, Kind.closeWidth, Kind.closeStores, hd, List.mem_append, List.mem_cons,
      List.not_mem_nil, or_false, not_or]
    refine ⟨?_, by omega, by omega, by omega⟩
    intro hi
    have hlt := hbelow _ hi
    omega

theorem freshHandle_over (env : Env) (junk : Nat → Mem) (id : Nat) (chunk : Int) :
    freshHandle (env.withJunk junk) id chunk =
      (freshHandle env id chunk).over (ramBuffer (junk id)) := by
  simp only [freshHandle, Bkv.over, overlay_nil]
  rfl

theorem runOk_fresh (junk : Nat → Mem) {id : Nat} {chunk : Int} {cs : List Call}
    (hs : Sim (freshHandle env id chunk) .start)
    (hr : runOk env (freshHandle env id chunk) cs = some h) :
    runOk (env.withJunk junk) (freshHandle (env.withJunk junk) id chunk) cs =
      some (h.over (ramBuffer (junk id))) := by
  rw [freshHandle_over]
  exact runOk_over junk hs _ hr

theorem runOk_self {id : Nat} {chunk : Int} {cs : List Call}
    (hs : Sim (freshHandle env id chunk) .start)
    (hr : runOk env (freshHandle env id chunk) cs = some h) :
    h.ptr = overlay (ramBuffer (env.junk id)) h.stores h.ptr := by
  have hself : runOk env (freshHandle env id chunk) cs = some (h.over (ramBuffer (env.junk id))) :=
    runOk_fresh env.junk hs hr
  rw [hr] at hself
  exact congrArg Bkv.ptr (Option.some.inj hself)

theorem bytesOf_congr {m' : Mem} {n : Nat} :
    bytesOf ⟨m, n⟩ = bytesOf ⟨m', n⟩ ↔ AgreeOn m m' 0 n := by
  constructor
  · intro h i _ hi
    have hget : (slice m 0 n)[i]? = (slice m' 0 n)[i]? := congrArg (fun l => l[i]?) h
    rw [slice_getElem?, slice_getElem?, if_pos hi, if_pos hi] at hget
    simpa using hget
  · intro h
    exact slice_congr (by rwa [Nat.zero_add])

/-- The bytes of a document are the same whatever `realloc` gave, if and only if the document is
not longer than the chunk that was cleared; one of them is never stored. -/
theorem bytes_depend_on_calls_iff (env : Env) (id : Nat) (p : BkvCreate) (h₀ h : Bkv)
    (cs : List Call)
    (hp : p.createType = .workInRam) (hcreate : bkvCreate env id p = (bkvOk, some h₀))
    (hr : runOk env h₀ cs = some h) (ht : h.state = .term) :
    ((∀ junk, ∃ h₀' h', bkvCreate (env.withJunk junk) id p = (bkvOk, some h₀') ∧
        runOk (env.withJunk junk) h₀' cs = some h' ∧
        bytesOf (bkvGetHead h') = bytesOf (bkvGetHead h)) ↔
      widths cs ≤ 128) ∧ ∃ i, i < h.writeOffset ∧ i ∉ h.stores := by
  obtain ⟨hmalloc, hhandle, rfl⟩ := ram_created hp hcreate
  have hs : Sim (freshHandle env id p.memChunkSize) .start := freshRam_sim ⟨id, p, hp, hcreate⟩
  have hcreate' : ∀ junk, bkvCreate (env.withJunk junk) id p =
      (bkvOk, some (freshHandle (env.withJunk junk) id p.memChunkSize)) := by
    intro junk
    have hm : (env.withJunk junk).malloc bkvDefaultMemChunkSize = true := hmalloc
    have hh : (env.withJunk junk).mallocHandle = true := hhandle
    simp [bkvCreate, openBuffer, hp, hm, hh]
    rfl
  have hsum : h.writeOffset = widths cs := by
    rw [(runOk_moves hs hr).1]
    exact Nat.zero_add _
  have hself := runOk_self hs hr
  obtain ⟨hpos, hlast⟩ := last_unwritten hs rfl hr ht
  rw [← hsum]
  refine ⟨⟨?_, ?_⟩, h.writeOffset - 1, by omega, hlast⟩
  · intro hall
    by_contra hlong
    obtain ⟨h₀', h', hc', hr', hbytes⟩ := hall fun _ i => env.junk id i + 1
    rw [hcreate'] at hc'
    cases hc'
    rw [runOk_fresh _ hs hr] at hr'
    cases hr'
    have hsame := bytesOf_congr.mp hbytes (h.writeOffset - 1) (Nat.zero_le _)
      (show h.writeOffset - 1 < h.writeOffset by omega)
    have hout : ¬h.writeOffset - 1 < 128 := by omega
    replace hsame : overlay (ramBuffer fun i => env.junk id i + 1) h.stores h.ptr (h.writeOffset - 1) =
        h.ptr (h.writeOffset - 1) := hsame
    rw [hself, overlay_of_notMem hlast, overlay_of_notMem hlast, ramBuffer, ramBuffer, if_neg hout,
      if_neg hout] at hsame
    simp at hsame
  · intro hshort junk
    refine ⟨_, _, hcreate' junk, runOk_fresh junk hs hr, ?_⟩
    apply bytesOf_congr.mpr
    intro i _ hi
    have hi' : i < 128 := Nat.lt_of_lt_of_le hi hshort
    change (h.over (ramBuffer (junk id))).ptr i = h.ptr i
    rw [hself]
    by_cases hmem : i ∈ h.stores
    · simp only [Bkv.over, overlay_of_mem hmem]
    · simp only [Bkv.over, overlay_of_notMem hmem, ramBuffer, if_pos hi']

/-- The largest document that the first chunk holds; closing it has a second one allocated. -/
def chunkCalls : List Call :=
  [.opening .map 1, .add (.keyed 2 (.str (List.replicate 118 0x61))), .closing .map]

theorem bytes_depend_on_calls_iff_chunk : widths chunkCalls = 128 ∧
    ∃ h, runOk calmEnv ramHandle chunkCalls = some h ∧ h.memSize = 256 ∧
      ∀ junk, ∃ h₀' h', bkvCreate (calmEnv.withJunk junk) 0
          { bkvCreateInit with createType := .workInRam } = (bkvOk, some h₀') ∧
        runOk (calmEnv.withJunk junk) h₀' chunkCalls = some h' ∧
        bytesOf (bkvGetHead h') = bytesOf (bkvGetHead h) := by
  have hrun : (runOk calmEnv ramHandle chunkCalls).map (fun h => (h.state, h.memSize)) =
      some (.term, 256) := by
    decide +kernel
  obtain ⟨h, hr, hh⟩ := Option.map_eq_some_iff.mp hrun
  rw [Prod.mk.injEq] at hh
  exact ⟨by decide +kernel, h, hr, hh.2, (bytes_depend_on_calls_iff calmEnv 0
    { bkvCreateInit with createType := .workInRam } ramHandle h chunkCalls rfl rfl hr hh.1).1.mpr
    (by decide +kernel)⟩

def longCalls : List Call :=
  [.opening .map 1, .add (.keyed 2 (.str (List.replicate 200 0x61))), .closing .map]

/-- The last byte of a document of 210 bytes is what `realloc` gave. -/
theorem last_byte_differs :
    ∃ h h', FreshRam calmEnv ramHandle ∧ FreshRam (calmEnv.withJunk fun _ _ => 7)
        (freshHandle (calmEnv.withJunk fun _ _ => 7) 0 (-1)) ∧
      runOk calmEnv ramHandle longCalls = some h ∧ h.state = .term ∧
      runOk (calmEnv.withJunk fun _ _ => 7) (freshHandle (calmEnv.withJunk fun _ _ => 7) 0 (-1))
        longCalls = some h' ∧
      (bytesOf (bkvGetHead h))[209]? = some 0 ∧ (bytesOf (bkvGetHead h'))[209]? = some 7 := by
  have hrun : (runOk calmEnv ramHandle longCalls).map
      (fun h => (h.state, (bytesOf (bkvGetHead h))[209]?)) = some (.term, some 0) := by
    decide +kernel
  have hrun' : (runOk (calmEnv.withJunk fun _ _ => 7)
      (freshHandle (calmEnv.withJunk fun _ _ => 7) 0 (-1)) longCalls).map
        (fun h => (bytesOf (bkvGetHead h))[209]?) = some (some 7) := by
    decide +kernel
  obtain ⟨h, hr, hh⟩ := Option.map_eq_some_iff.mp hrun
  obtain ⟨h', hr', hh'⟩ := Option.map_eq_some_iff.mp hrun'
  rw [Prod.mk.injEq] at hh
  exact ⟨h, h', ramHandle_fresh, ⟨0, { bkvCreateInit with createType := .workInRam }, rfl, rfl⟩,
    hr, hh.1, hr', hh.2, hh'⟩

end Wtools
