import Wtools.HandleGoods

/-!
# The life of a handle on a file

`bkv_prepare` maps the file anew each time it grows and keeps only the address of the last mapping,
and `bkv_destroy` does not free the handle. This module counts what is left of a handle on a new
file.
-/

namespace Wtools.Life

open ByteMemory Ownership

/-- Calls of the writer, each in surroundings of its own. -/
def writeAll : Handle → List (Env × Call) → Proc Resource Handle
  | hd, [] => pure hd
  | hd, c :: cs => do
    let hd' ← write c.1 hd c.2
    writeAll hd' cs

/-- The same calls, as far as the handle is concerned. -/
def written (h : Bkv) (cs : List (Env × Call)) : Bkv :=
  cs.foldl (fun h c => (exec c.1 h c.2).2) h

/-- The calls store inside of the mapping, each as it is then, and of the nesting stack. Without a
mapping `mem_size` is 0. -/
def StoreInside (h : Bkv) : List (Env × Call) → Prop
  | [] => True
  | c :: cs => Inside h (exec c.1 h c.2).2 ∧
      StoreInside (exec c.1 h c.2).2 cs

instance decidableStoreInside : (h : Bkv) → (cs : List (Env × Call)) → Decidable (StoreInside h cs)
  | _, [] => .isTrue trivial
  | h, c :: cs =>
    haveI := decidableStoreInside (exec c.1 h c.2).2 cs
    inferInstanceAs (Decidable (Inside _ _ ∧ _))

/-- A handle is created, written to and destroyed. -/
def writeOnce (env : Env) (id : Nat) (p : BkvCreate) (cs : List (Env × Call)) :
    Proc Resource Int := do
  let r ← create env id p 0 (-1)
  match r.2 with
  | none => return r.1
  | some hd => do
    let hd' ← writeAll hd cs
    let ended ← destroy hd'
    return ended.1

def chunkSize (h : Bkv) : Int :=
  if h.memChunkSize = -1 then bkvDefaultMemChunkSize else h.memChunkSize

/-- A handle on a file that has grown `k` times. -/
structure GrownTo (hd : Handle) (k : Nat) : Prop where
  file : hd.bkv.fd ≠ -1
  chunk : 0 < chunkSize hd.bkv
  size : hd.bkv.memSize = k * chunkSize hd.bkv
  mapped : hd.ptr = 0 ↔ k = 0
  stores (offs : List Nat) : hd.Stores offs ↔ ∀ i ∈ offs, (i : Int) < hd.bkv.memSize
  noEnd : hd.endHdl = none
  sane : hd.Sane

variable {env : Env} {hd : Handle} {k : Nat} {c : Call}

theorem nextSize_of (h : GrownTo hd k) : nextSize hd.bkv = (k + 1 : Nat) * chunkSize hd.bkv := by
  have hnext : nextSize hd.bkv =
    (hd.bkv.memSize.tdiv (chunkSize hd.bkv) + 1) * chunkSize hd.bkv := rfl
  rw [hnext, h.size, Int.mul_tdiv_cancel _ (Int.ne_of_gt h.chunk), Int.natCast_succ]

theorem GrownTo.fits (h : GrownTo hd k) (h' : Bkv) (offs : List Nat) :
    hd.Fits h' offs ↔ ∀ i ∈ offs, (i : Int) < h'.memSize := by
  rw [Handle.Fits]
  split
  · rename_i hsize
    rw [h.stores, hsize]
  · rfl

/-- The first mapping is not lost with the handle, so `k` growths lose `k - 1`. -/
theorem write_grows (h : GrownTo hd k) (hfit : hd.HasRoom env c) : Owns hd.goods (write env hd c)
    fun hd' own => hd'.bkv = (exec env hd.bkv c).2 ∧ ∃ k' gone, k ≤ k' ∧ GrownTo hd' k' ∧
      own = hd'.goods + gone ∧ kinds gone = Multiset.replicate (k' - 1 - (k - 1)) .mapping := by
  refine (write_owns hfit).mono fun hd' own hown => ?_
  obtain ⟨rfl, hbkv, hend, hptr, hstores, -⟩ := hown
  have hinside : ∀ offs, hd'.Stores offs ↔ ∀ i ∈ offs, (i : Int) < hd'.bkv.memSize := fun offs => by
    rw [hstores, h.fits, hbkv]
  have hx := exec_regrown env hd.bkv c
  rw [← hbkv] at hx hptr ⊢
  have hchunk : chunkSize hd'.bkv = chunkSize hd.bkv := by
    rw [chunkSize, chunkSize, hx.chunk]
  have hsane : hd'.Sane := h.sane.kept hend hx.endHdl
  have hgrown : ∀ k' : Nat, hd'.bkv.memSize = k' * chunkSize hd.bkv → (hd'.ptr = 0 ↔ k' = 0) →
      GrownTo hd' k' := fun k' hsize hmapped =>
    ⟨hx.fd ▸ h.file, hchunk ▸ h.chunk, hchunk ▸ hsize, hmapped, hinside, hend.trans h.noEnd, hsane⟩
  refine ⟨rfl, ?_⟩
  rcases hx.size with hsame | hnext
  · refine ⟨k, _, le_rfl, hgrown k (hsame.trans h.size) ?_, rfl, ?_⟩
    · rw [hptr, and_iff_right hsame, h.mapped]
    · rw [growthLoss, if_pos (.inl hsame), Nat.sub_self]
      rfl
  · rw [nextSize_of h] at hnext
    have hne : hd'.bkv.memSize ≠ hd.bkv.memSize := by
      rw [hnext, h.size, Int.natCast_succ, Int.add_mul, Int.one_mul]
      have := h.chunk
      omega
    refine ⟨k + 1, _, Nat.le_succ k, hgrown (k + 1) hnext ?_, rfl, ?_⟩
    · exact iff_of_false (fun h0 => hne (hptr.mp h0).1) (Nat.succ_ne_zero k)
    · rw [growthLoss, if_neg (not_or.mpr ⟨hne, h.file⟩), mappingAt]
      by_cases hk : k = 0
      · rw [if_pos (h.mapped.mpr hk), hk]
        rfl
      · rw [if_neg (mt h.mapped.mp hk), show k + 1 - 1 - (k - 1) = 1 by omega]
        rfl

theorem writeAll_fails {cs : List (Env × Call)} (h : GrownTo hd k) (hin : ¬StoreInside hd.bkv cs) :
    Fails hd.goods (writeAll hd cs) := by
  induction cs generalizing hd k with
  | nil => exact absurd trivial hin
  | cons c cs ih =>
    by_cases hfit : hd.HasRoom c.1 c.2
    · refine (write_grows h hfit).bind_fails fun hd₁ own hown => ?_
      obtain ⟨hbkv, k₁, gone₁, -, h₁, rfl, -⟩ := hown
      refine (ih h₁ fun hrest => hin ⟨⟨hfit.1, (h.fits _ _).mp hfit.2⟩, ?_⟩).frame gone₁
      rwa [← hbkv]
    · exact (write_fails hfit).bind _

theorem writeAll_grows {cs : List (Env × Call)} (h : GrownTo hd k) (hin : StoreInside hd.bkv cs) :
    Owns hd.goods (writeAll hd cs) fun hd' own => hd'.bkv = written hd.bkv cs ∧ ∃ k' gone,
      k ≤ k' ∧ GrownTo hd' k' ∧ own = hd'.goods + gone ∧
        kinds gone = Multiset.replicate (k' - 1 - (k - 1)) .mapping := by
  induction cs generalizing hd k with
  | nil =>
    refine Owns.pure ⟨rfl, k, 0, le_rfl, h, (add_zero _).symm, ?_⟩
    rw [Nat.sub_self]
    rfl
  | cons c cs ih =>
    refine (write_grows h ⟨hin.1.1, (h.fits _ _).mpr hin.1.2⟩).bind fun hd₁ own hown => ?_
    obtain ⟨hbkv₁, k₁, gone₁, hle₁, h₁, rfl, hgone₁⟩ := hown
    refine ((ih h₁ (hbkv₁ ▸ hin.2)).frame gone₁).mono fun hd' own hown => ?_
    obtain ⟨own, rfl, hbkv, k', gone, hle, h', rfl, hgone⟩ := hown
    refine ⟨hbkv.trans (congrArg (written · cs) hbkv₁), k', gone + gone₁, hle₁.trans hle, h',
      add_assoc .., ?_⟩
    rw [kinds_add, hgone, hgone₁, ← Multiset.replicate_add]
    exact congrArg (Multiset.replicate · _) (by omega)

theorem mappingAt_eq_zero {a : Nat} : mappingAt a = 0 ↔ a = 0 := by
  rw [mappingAt]
  split <;> simp_all

theorem file_created {id : Nat} {p : BkvCreate} {h : Bkv}
    (hp : p.createType = .openFileCreatAndWrite) (hcreate : (bkvCreate env id p).2 = some h) :
    (h.fd ≠ -1 ∧ h.memSize = 0 ∧ h.memChunkSize = p.memChunkSize) ∧
      bufferKinds env p = {.file} := by
  rw [bufferKinds, hp]
  simp only [bkvCreate, openBuffer, hp, bkvOpenFileCreateWrite] at hcreate
  split at hcreate
  · cases hcreate
  · rename_i hopen
    split at hopen
    · cases hopen
    · rename_i hmode
      split at hopen
      · cases hopen
      · rename_i hcreat
        cases hopen
        split at hcreate
        · cases hcreate
        · cases hcreate
          exact ⟨⟨by simp, rfl, rfl⟩, if_pos ⟨hmode, by simp [hcreat]⟩⟩

/-- A new file is not mapped. -/
theorem new_file {id : Nat} {p : BkvCreate} {own : Multiset Resource}
    (hp : p.createType = .openFileCreatAndWrite)
    (hchunk : p.memChunkSize = -1 ∨ 0 < p.memChunkSize) (hnew : NewHandle env id p own hd) :
    GrownTo hd 0 := by
  obtain ⟨⟨hfile, hsize, hmem⟩, hkinds⟩ := file_created hp hnew.bkv
  have hptr : kinds (mappingAt hd.ptr) + kinds (.block hd.self ::ₘ .file hd.bkv.fd ::ₘ hd.kept) =
      .block ::ₘ {.file} := by
    rw [← kinds_add, ← Handle.goods_file hfile, ← hnew.goods, hnew.kinds, hkinds]
  have hkept : hd.kept = 0 := by rw [Handle.kept, hnew.noEnd]
  rw [hkept] at hptr
  have hnull : hd.ptr = 0 := by
    refine mappingAt_eq_zero.mp (kinds_eq_zero.mp ?_)
    exact add_eq_right.mp hptr
  refine ⟨hfile, ?_, ?_, iff_of_true hnull rfl, fun offs => ?_, hnew.noEnd, hnew.sane⟩
  · rw [chunkSize, hmem]
    split
    · decide
    · rename_i hne
      exact hchunk.resolve_left hne
  · rw [hsize, Int.natCast_zero, Int.zero_mul]
  · -- nothing can be stored at NULL, and no offset is below 0
    rw [hsize]
    refine forall₂_congr fun i hi => iff_of_false (fun hi => hi.1.1 hnull) (by omega)

/-- Whatever is written to a new file, and whatever the surroundings answer, memory is used that is
not there if and only if a call stores behind the mapping, or before there is one, or opens a 33rd
container. When the handle is destroyed the file is closed, but the handle is still there, and of
the `k` mappings that a buffer of `k` chunks has had, all but the last. -/
theorem file_leaves {id : Nat} {p : BkvCreate} {h : Bkv} {s : Process} (cs : List (Env × Call))
    (hp : p.createType = .openFileCreatAndWrite)
    (hchunk : p.memChunkSize = -1 ∨ 0 < p.memChunkSize)
    (hcreate : (bkvCreate env id p).2 = some h) :
    ((writeOnce env id p cs s).isSome ↔ StoreInside h cs) ∧
    ∀ l_ret s', writeOnce env id p cs s = some (l_ret, s') → l_ret = 0 ∧
      ∃ gone, ∃ k : Nat, s'.goods = gone + s.goods ∧
        (written h cs).memSize = k * chunkSize (written h cs) ∧
        kinds gone = .block ::ₘ Multiset.replicate (k - 1) .mapping := by
  have hclean : Clean p (-1) := ⟨by simp [hp], fun _ _ => rfl⟩
  by_cases hin : StoreInside h cs
  · have hlife : Owns 0 (writeOnce env id p cs) fun l_ret own => l_ret = 0 ∧ ∃ k : Nat,
        (written h cs).memSize = k * chunkSize (written h cs) ∧
          kinds own = .block ::ₘ Multiset.replicate (k - 1) .mapping := by
      refine (create_owns env id hclean).bind fun r own hown => ?_
      obtain ⟨l_ret, hd⟩ := r
      obtain ⟨-, hnew⟩ := hown
      cases hd with
      | none => exact absurd (hnew.2.symm.trans hcreate) nofun
      | some hd =>
        obtain rfl : hd.bkv = h := Option.some.inj (hnew.bkv.symm.trans hcreate)
        rw [hnew.goods]
        refine (writeAll_grows (new_file hp hchunk hnew) hin).bind fun hd' own hown => ?_
        obtain ⟨hbkv, k, gone, -, h', rfl, hgone⟩ := hown
        refine ((destroy_owns h'.sane).frame gone).bind fun r own hown => Owns.pure ?_
        obtain ⟨own, rfl, hret, hend, hnone⟩ := hown
        rw [hnone h'.file] at hend
        refine ⟨hret, k, hbkv ▸ h'.size, ?_⟩
        rw [show own = hd'.remains from hend, Handle.remains, if_neg h'.file, Handle.kept, h'.noEnd,
          kinds_add, hgone]
        exact Multiset.singleton_add ..
    obtain ⟨l_ret, s₁, gone, hrun, hs', hret, k, hsize, hkinds⟩ := hlife s s.goods (zero_add _).symm
    refine ⟨iff_of_true (Option.isSome_iff_exists.mpr ⟨_, hrun⟩) hin, fun l_ret' s' hrun' => ?_⟩
    cases hrun.symm.trans hrun'
    exact ⟨hret, gone, k, hs', hsize, hkinds⟩
  · have hfails : Fails 0 (writeOnce env id p cs) := by
      refine (create_owns env id hclean).bind_fails fun r own hown => ?_
      obtain ⟨l_ret, hd⟩ := r
      obtain ⟨-, hnew⟩ := hown
      cases hd with
      | none => exact absurd (hnew.2.symm.trans hcreate) nofun
      | some hd =>
        obtain rfl : hd.bkv = h := Option.some.inj (hnew.bkv.symm.trans hcreate)
        rw [hnew.goods]
        exact (writeAll_fails (new_file hp hchunk hnew) hin).bind _
    have hnone := hfails s s.goods (zero_add _).symm
    rw [hnone]
    exact ⟨iff_of_false (by simp) hin, fun l_ret s' hrun => by cases hrun⟩

/-- A document that does not fit into one chunk. -/
def longDocument : List (Env × Call) :=
  [(calmEnv, .opening .map 0), (calmEnv, .add (.keyed 3 (.str (List.replicate 100 97)))),
    (calmEnv, .add (.keyed 4 (.str (List.replicate 100 97)))), (calmEnv, .closing .map)]

def newFileCreate : BkvCreate :=
  { bkvCreateInit with
    createType := .openFileCreatAndWrite, filename := "test_file.db", mode := 0x1FF }

/-- The long document is written; where the file cannot be mapped, its first call stores at NULL. -/
theorem file_leaves_long : StoreInside newFile longDocument ∧
    (∃ s' gone, ∃ k : Nat, writeOnce calmEnv 0 newFileCreate longDocument ⟨0, 0⟩ = some (0, s') ∧
      s'.goods = gone + 0 ∧
      (written newFile longDocument).memSize = k * chunkSize (written newFile longDocument) ∧
      kinds gone = .block ::ₘ Multiset.replicate (k - 1) .mapping) ∧
    writeOnce calmEnv 0 newFileCreate
      [({ calmEnv with mmap := fun _ => false }, .opening .map 0)] ⟨0, 0⟩ = none := by
  have hlong := @file_leaves calmEnv 0 newFileCreate newFile ⟨0, 0⟩ longDocument rfl (.inl rfl) rfl
  have hshort := @file_leaves calmEnv 0 newFileCreate newFile ⟨0, 0⟩
    [({ calmEnv with mmap := fun _ => false }, .opening .map 0)] rfl (.inl rfl) rfl
  have hin : StoreInside newFile longDocument := by decide +kernel
  obtain ⟨⟨l_ret, s'⟩, hrun⟩ := Option.isSome_iff_exists.mp (hlong.1.mpr hin)
  obtain ⟨rfl, gone, k, hs', hsize, hkinds⟩ := hlong.2 l_ret s' hrun
  refine ⟨hin, ⟨s', gone, k, hrun, hs', hsize, hkinds⟩, ?_⟩
  exact Option.not_isSome_iff_eq_none.mp (mt hshort.1.mp (by decide +kernel))

end Wtools.Life
