import Wtools.HandleLife
import Wtools.Regrowth

/-!
# What a handle owns

Every function of a handle is specified by what the handle owns before and after it, and by what it
loses: resources that were taken and that nothing leads to any more.
-/

namespace Wtools.Life

open ByteMemory Ownership

/-- Resources, but for their names. -/
inductive ResourceKind where
  | block | mapping | file
  deriving DecidableEq, Repr

def Resource.kind : Resource → ResourceKind
  | .block _ => .block
  | .mapping _ => .mapping
  | .file _ => .file

def kinds (own : Multiset Resource) : Multiset ResourceKind := own.map Resource.kind

theorem kinds_add (own own' : Multiset Resource) : kinds (own + own') = kinds own + kinds own' :=
  Multiset.map_add ..

theorem kinds_eq_zero {own : Multiset Resource} : kinds own = 0 ↔ own = 0 :=
  Multiset.map_eq_zero

def blockAt (a : Nat) : Multiset Resource := if a = 0 then 0 else {.block a}

def mappingAt (a : Nat) : Multiset Resource := if a = 0 then 0 else {.mapping a}

namespace Handle

def buffer (hd : Handle) : Multiset Resource :=
  if hd.bkv.fd = -1 then blockAt hd.ptr else mappingAt hd.ptr

def opened (hd : Handle) : Multiset Resource := if hd.bkv.fd = -1 then 0 else {.file hd.bkv.fd}

/-- What lies behind `end_hdl`. -/
def kept (hd : Handle) : Multiset Resource :=
  match hd.endHdl with
  | none => 0
  | some e => .block e.1 ::ₘ blockAt e.2

def goods (hd : Handle) : Multiset Resource :=
  hd.buffer + .block hd.self ::ₘ (hd.opened + hd.kept)

theorem goods_ram {hd : Handle} (h : hd.bkv.fd = -1) :
    hd.goods = blockAt hd.ptr + .block hd.self ::ₘ hd.kept := by
  rw [goods, buffer, opened, if_pos h, if_pos h, zero_add]

theorem goods_file {hd : Handle} (h : hd.bkv.fd ≠ -1) :
    hd.goods = mappingAt hd.ptr + .block hd.self ::ₘ .file hd.bkv.fd ::ₘ hd.kept := by
  rw [goods, buffer, opened, if_neg h, if_neg h, Multiset.singleton_add]

/-- `end_hdl` is NULL, or leads to a handle, which has no bytes where it has no buffer. -/
structure Sane (hd : Handle) : Prop where
  same : hd.endHdl.isSome = hd.bkv.endHdl.isSome
  copy : ∀ e a, hd.endHdl = some e → hd.bkv.endHdl = some a → e.2 = 0 → a.writeOffset = 0

/-- The bytes can be stored to when the buffer has grown as it has in `h`. -/
def Fits (hd : Handle) (h : Bkv) (offs : List Nat) : Prop :=
  if h.memSize = hd.bkv.memSize then hd.Stores offs else ∀ i ∈ offs, (i : Int) < h.memSize

instance (hd : Handle) (h : Bkv) (offs : List Nat) : Decidable (hd.Fits h offs) :=
  inferInstanceAs (Decidable (if h.memSize = hd.bkv.memSize then hd.Stores offs
    else ∀ i ∈ offs, (i : Int) < h.memSize))

/-- What is stored on the way to `h` lies inside of what the handle then has. -/
def Advances (hd : Handle) (h : Bkv) : Prop := Nested h ∧ hd.Fits h (newStores hd.bkv h)

/-- A call of the writer stores inside. -/
def HasRoom (env : Env) (hd : Handle) (c : Call) : Prop := hd.Advances (exec env hd.bkv c).2

/-- So does `bkv_append`. -/
def TakesTail (env : Env) (hd : Handle) (a : Tail) : Prop :=
  (bkvAppend env hd.bkv a).1 = bkvOk →
    if hd.bkv.fd = -1 then
      hd.Fits (bkvAppend env hd.bkv a).2 (List.range' hd.bkv.writeOffset a.writeOffset)
    else hd.Stores (List.range' hd.bkv.writeOffset a.writeOffset)

instance (env : Env) (hd : Handle) (c : Call) : Decidable (hd.HasRoom env c) :=
  inferInstanceAs (Decidable (Nested _ ∧ hd.Fits (exec env hd.bkv c).2 _))

instance (env : Env) (hd : Handle) (a : Tail) : Decidable (hd.TakesTail env a) := by
  unfold TakesTail
  infer_instance

end Handle

/-- What is stored on the way from `h` to `h'` lies before the end of the buffer, and no more than 32
containers are open. -/
def Inside (h h' : Bkv) : Prop := Nested h' ∧ ∀ i ∈ newStores h h', (i : Int) < h'.memSize

instance (h h' : Bkv) : Decidable (Inside h h') :=
  inferInstanceAs (Decidable (Nested h' ∧ ∀ i ∈ newStores h h', _))

variable {env : Env} {hd hd' : Handle} {h : Bkv} {c : Call}

theorem blockAt_of_ne {a : Nat} (h : a ≠ 0) : blockAt a = {.block a} := if_neg h

theorem self_mem_goods (hd : Handle) : .block hd.self ∈ hd.goods :=
  Multiset.mem_add.mpr (.inr (Multiset.mem_cons_self ..))

theorem place_mem_goods (h : hd.ptr ≠ 0) : hd.place ∈ hd.goods := by
  refine Multiset.mem_add.mpr (.inl ?_)
  rw [Handle.place, Handle.buffer, blockAt, mappingAt, if_neg h, if_neg h]
  split
  · exact Multiset.mem_singleton_self _
  · exact Multiset.mem_singleton_self _

section Access
variable {offs : List Nat} {own : Multiset Resource}

theorem read_owns (h : hd.Reads offs) (hgoods : hd.ptr ≠ 0 → hd.place ∈ own) :
    Owns own (hd.read offs) fun _ own' => own' = own := by
  rw [Handle.read]
  by_cases hnil : offs = []
  · rw [if_pos hnil]
    exact Owns.pure rfl
  · obtain ⟨i, hi⟩ := List.exists_mem_of_ne_nil offs hnil
    rw [if_neg hnil, if_pos h]
    exact need_owns (hgoods (h i hi).1)

theorem read_fails (h : ¬hd.Reads offs) : Fails own (hd.read offs) := by
  have hnil : offs ≠ [] := by
    rintro rfl
    exact h fun i hi => absurd hi List.not_mem_nil
  rw [Handle.read, if_neg hnil, if_neg h]
  exact Fails.failure

theorem store_owns (h : hd.Stores offs) (hgoods : hd.ptr ≠ 0 → hd.place ∈ own) :
    Owns own (hd.store offs) fun _ own' => own' = own := by
  rw [Handle.store, if_pos h]
  exact read_owns (fun i hi => (h i hi).1) hgoods

theorem store_fails (h : ¬hd.Stores offs) : Fails own (hd.store offs) := by
  rw [Handle.store, if_neg h]
  exact Fails.failure

end Access

theorem Handle.Sane.kept (hsane : hd.Sane) (hend : hd'.endHdl = hd.endHdl)
    (hbkv : hd'.bkv.endHdl = hd.bkv.endHdl) : hd'.Sane :=
  ⟨hend ▸ hbkv ▸ hsane.same, fun e a he ha => hsane.copy e a (hend ▸ he) (hbkv ▸ ha)⟩

theorem malloc_owns (ok : Bool) :
    Owns 0 (malloc ok) fun a own => (a = 0 ↔ ok = false) ∧ own = blockAt a := by
  cases ok with
  | false => exact Owns.pure ⟨iff_of_true rfl rfl, rfl⟩
  | true =>
    refine (acquire_owns Resource.block).mono fun a own ha => ⟨iff_of_false ha.1 (by decide), ?_⟩
    rw [ha.2, blockAt_of_ne ha.1]

theorem mmap_owns (ok : Bool) :
    Owns 0 (mmap ok) fun a own => (a = 0 ↔ ok = false) ∧ own = mappingAt a := by
  cases ok with
  | false => exact Owns.pure ⟨iff_of_true rfl rfl, rfl⟩
  | true =>
    refine (acquire_owns Resource.mapping).mono fun a own ha => ⟨iff_of_false ha.1 (by decide), ?_⟩
    rw [ha.2, mappingAt, if_neg ha.1]

theorem realloc_owns (a : Nat) :
    Owns (blockAt a) (realloc a) fun b own => b ≠ 0 ∧ own = blockAt b := by
  have hnew : Owns 0 (malloc true) fun b own => b ≠ 0 ∧ own = blockAt b :=
    (malloc_owns true).mono fun b own hb => ⟨mt hb.1.mp (by decide), hb.2⟩
  rw [blockAt, realloc]
  split
  · exact hnew
  · refine (release_owns (Resource.block a) 0).bind fun _ own hown => ?_
    subst hown
    exact hnew

theorem touch_owns {a : Nat} {own : Multiset Resource} (h : .block a ∈ own) :
    Owns own (touch a) fun _ own' => own' = own :=
  need_owns h

theorem munmap_owns (a : Nat) (own : Multiset Resource) :
    Owns (mappingAt a + own) (munmap a) fun _ own' => own' = own := by
  rw [mappingAt, munmap]
  split
  · exact Owns.pure (zero_add own)
  · rw [Multiset.singleton_add]
    exact discard_owns (.mapping a) own

/-- The mapping that a file had before it grew. -/
def growthLoss (hd : Handle) (h : Bkv) : Multiset Resource :=
  if h.memSize = hd.bkv.memSize ∨ hd.bkv.fd = -1 then 0 else mappingAt hd.ptr

/-- What `regrow` makes of a handle. -/
structure Grown (hd : Handle) (h : Bkv) (hd' : Handle) : Prop where
  bkv : hd'.bkv = h
  endHdl : hd'.endHdl = hd.endHdl
  ptr : hd'.ptr = 0 ↔ h.memSize = hd.bkv.memSize ∧ hd.ptr = 0
  stores (offs : List Nat) : hd'.Stores offs ↔ hd.Fits h offs
  room : h.memSize = hd.bkv.memSize ∧ hd'.room = hd.room ∧ hd'.writable = hd.writable ∨
    hd'.room = h.memSize ∧ hd'.writable

/-- At a new address there are as many bytes as were asked for. -/
theorem Grown.moved {ptr : Nat} (hsize : h.memSize ≠ hd.bkv.memSize) (hptr : ptr ≠ 0) :
    Grown hd h { hd with bkv := h, ptr := ptr, room := h.memSize, writable := true } where
  bkv := rfl
  endHdl := rfl
  ptr := iff_of_false hptr fun h => hsize h.1
  stores offs := by
    rw [Handle.Stores, Handle.Fits, if_neg hsize]
    simp [hptr]
  room := .inr ⟨rfl, rfl⟩

/-- When the size stays, so does all else. -/
theorem Grown.same (hsize : h.memSize = hd.bkv.memSize) : Grown hd h { hd with bkv := h } where
  bkv := rfl
  endHdl := rfl
  ptr := (and_iff_right hsize).symm
  stores offs := by
    rw [Handle.Fits, if_pos hsize]
    rfl
  room := .inl ⟨hsize, rfl, rfl⟩

theorem regrow_owns (hd : Handle) (hfd : h.fd = hd.bkv.fd) : Owns hd.goods (regrow hd h)
    fun hd' own => own = hd'.goods + growthLoss hd h ∧ Grown hd h hd' := by
  rw [regrow, growthLoss]
  by_cases hsize : h.memSize = hd.bkv.memSize
  · rw [if_pos hsize, if_pos (.inl hsize)]
    refine Owns.pure ⟨?_, .same hsize⟩
    rw [add_zero, Handle.goods, Handle.goods, Handle.buffer, Handle.buffer, Handle.opened,
      Handle.opened, hfd]
    rfl
  rw [if_neg hsize]
  by_cases hram : hd.bkv.fd = -1
  · rw [if_pos hram, if_pos (.inr hram), Handle.goods_ram hram]
    refine ((realloc_owns hd.ptr).frame _).bind fun ptr own hown => ?_
    obtain ⟨own', rfl, hptr, rfl⟩ := hown
    refine Owns.pure ⟨?_, .moved hsize hptr⟩
    rw [add_zero, Handle.goods_ram (hfd.trans hram)]
    rfl
  · rw [if_neg hram, if_neg (not_or.mpr ⟨hsize, hram⟩), Handle.goods_file hram]
    refine ((mmap_owns true).beside _).bind fun ptr own hown => ?_
    obtain ⟨own', rfl, hptr, rfl⟩ := hown
    refine Owns.pure ⟨?_, .moved hsize (mt hptr.mp (by decide))⟩
    rw [Handle.goods_file (hfd ▸ hram), add_comm (mappingAt hd.ptr), ← add_assoc]
    exact congrArg (fun fd => mappingAt ptr + _ ::ₘ .file fd ::ₘ hd.kept + _) hfd.symm

theorem append_fd (env : Env) (h : Bkv) (a : Tail) : (bkvAppend env h a).2.fd = h.fd := by
  rcases bkvAppend_cases env h a with ⟨-, hkept⟩ | ⟨n, happ⟩
  · rw [hkept]
  · rw [happ]
    rfl

theorem advance_owns (hfd : h.fd = hd.bkv.fd) (hfit : hd.Advances h) :
    Owns hd.goods (advance hd h) fun hd' own =>
      own = hd'.goods + growthLoss hd h ∧ Grown hd h hd' := by
  refine (touch_owns (self_mem_goods hd)).bind fun _ own hown => ?_
  subst hown
  rw [if_pos hfit.1]
  refine (regrow_owns hd hfd).bind fun hd' own hown => ?_
  obtain ⟨rfl, hgrown⟩ := hown
  refine (store_owns ((hgrown.stores _).mpr hfit.2) fun hptr =>
    Multiset.mem_add.mpr (.inl (place_mem_goods hptr))).bind fun _ own hown => Owns.pure ?_
  exact ⟨hown, hgrown⟩

theorem advance_fails (hfd : h.fd = hd.bkv.fd) (hfit : ¬hd.Advances h) :
    Fails hd.goods (advance hd h) := by
  refine (touch_owns (self_mem_goods hd)).bind_fails fun _ own hown => ?_
  subst hown
  by_cases hnested : Nested h
  · rw [if_pos hnested]
    refine (regrow_owns hd hfd).bind_fails fun hd' own hown => ?_
    exact (store_fails fun h => hfit ⟨hnested, (hown.2.stores _).mp h⟩).bind _
  · rw [if_neg hnested]
    exact Fails.failure

theorem write_owns (hfit : hd.HasRoom env c) : Owns hd.goods (write env hd c)
    fun hd' own => own = hd'.goods + growthLoss hd (exec env hd.bkv c).2 ∧
      Grown hd (exec env hd.bkv c).2 hd' :=
  advance_owns (exec_regrown env hd.bkv c).fd hfit

theorem write_fails (hfit : ¬hd.HasRoom env c) : Fails hd.goods (write env hd c) :=
  advance_fails (exec_regrown env hd.bkv c).fd hfit

section Append
variable {a : Tail} {src : Nat} {bytes : Handle → Proc Resource Unit}
  {others : Multiset Resource}

/-- A file gets longer and nothing else. -/
theorem stretch_owns (env : Env) (hd : Handle) (a : Tail) :
    Owns hd.goods (stretch hd (bkvAppend env hd.bkv a).2) fun hd' own => own = hd'.goods ∧
      hd'.bkv = (bkvAppend env hd.bkv a).2 ∧ hd'.endHdl = hd.endHdl ∧
      (hd.bkv.fd = -1 → Grown hd (bkvAppend env hd.bkv a).2 hd') ∧
      ((bkvAppend env hd.bkv a).1 = bkvOk →
        (hd'.Stores (List.range' hd.bkv.writeOffset a.writeOffset) ↔ hd.TakesTail env a)) := by
  have hfd := append_fd env hd.bkv a
  rw [stretch]
  by_cases hram : hd.bkv.fd = -1
  · rw [if_pos hram]
    refine (regrow_owns hd hfd).mono fun hd' own hown => ?_
    obtain ⟨rfl, hgrown⟩ := hown
    rw [growthLoss, if_pos (.inr hram), add_zero]
    refine ⟨rfl, hgrown.bkv, hgrown.endHdl, fun _ => hgrown, fun hok => ?_⟩
    rw [hgrown.stores, Handle.TakesTail, if_pos hram]
    exact (true_imp_iff.symm).trans (imp_congr_left (iff_of_true trivial hok))
  · rw [if_neg hram]
    refine Owns.pure ⟨?_, rfl, rfl, fun h => absurd h hram, fun hok => ?_⟩
    · rw [Handle.goods_file hram, Handle.goods_file (hfd.symm ▸ hram)]
      exact congrArg (fun fd => mappingAt hd.ptr + _ ::ₘ .file fd ::ₘ hd.kept) hfd.symm
    · rw [Handle.TakesTail, if_neg hram]
      exact (true_imp_iff.symm).trans (imp_congr_left (iff_of_true trivial hok))

/-- The handle that is appended may be any that the program has. -/
theorem append_owns (hsrc : .block src ∈ hd.goods + others) (hfit : hd.TakesTail env a)
    (hbytes : (bkvAppend env hd.bkv a).1 = bkvOk → ∀ hd' : Handle, hd'.endHdl = hd.endHdl →
      hd'.Stores (List.range' hd.bkv.writeOffset a.writeOffset) →
      Owns (hd'.goods + others) (bytes hd') fun _ own => own = hd'.goods + others) :
    Owns (hd.goods + others) (append env hd src bytes a) fun hd' own =>
      own = hd'.goods + others ∧ hd'.bkv = (bkvAppend env hd.bkv a).2 ∧
        hd'.endHdl = hd.endHdl ∧
        (hd.bkv.fd = -1 → Grown hd (bkvAppend env hd.bkv a).2 hd') := by
  refine (touch_owns (Multiset.mem_add.mpr (.inl (self_mem_goods hd)))).bind fun _ own hown => ?_
  subst hown
  refine (touch_owns hsrc).bind fun _ own hown => ?_
  subst hown
  by_cases hok : (bkvAppend env hd.bkv a).1 = bkvOk
  · rw [if_neg (not_not_intro hok)]
    refine ((stretch_owns env hd a).frame others).bind fun hd' own hown => ?_
    obtain ⟨own, rfl, rfl, hbkv, hend, hgrown, hstores⟩ := hown
    have hst := (hstores hok).mpr hfit
    refine (hbytes hok hd' hend hst).bind fun _ own hown => ?_
    subst hown
    refine (store_owns hst fun hptr =>
      Multiset.mem_add.mpr (.inl (place_mem_goods hptr))).bind fun _ own hown => Owns.pure ?_
    exact ⟨hown, hbkv, hend, hgrown⟩
  · rw [if_pos hok]
    have hkept := (bkvAppend_cases env hd.bkv a).resolve_right fun ⟨n, hn⟩ => hok (by rw [hn])
    exact Owns.pure ⟨rfl, hkept.2.symm, rfl, fun _ => hkept.2.symm ▸ .same rfl⟩

theorem append_fails (hsrc : .block src ∈ hd.goods + others)
    (hok : (bkvAppend env hd.bkv a).1 = bkvOk)
    (hbad : ∀ hd' : Handle, hd'.endHdl = hd.endHdl →
      (hd'.Stores (List.range' hd.bkv.writeOffset a.writeOffset) ↔ hd.TakesTail env a) →
      Fails (hd'.goods + others) (do
        bytes hd'
        hd'.store (List.range' hd.bkv.writeOffset a.writeOffset)
        return hd')) :
    Fails (hd.goods + others) (append env hd src bytes a) := by
  refine (touch_owns (Multiset.mem_add.mpr (.inl (self_mem_goods hd)))).bind_fails
    fun _ own hown => ?_
  subst hown
  refine (touch_owns hsrc).bind_fails fun _ own hown => ?_
  subst hown
  rw [if_neg (not_not_intro hok)]
  refine ((stretch_owns env hd a).frame others).bind_fails fun hd' own hown => ?_
  obtain ⟨own, rfl, rfl, -, hend, -, hstores⟩ := hown
  exact hbad hd' hend (hstores hok)

end Append

/-- What a buffer is made of. A file that cannot be mapped stays open when it was to be read
only. -/
def bufferKinds (env : Env) (p : BkvCreate) : Multiset ResourceKind :=
  match p.createType with
  | .workInRam => if env.malloc bkvDefaultMemChunkSize then {.block} else 0
  | .unsafeInputBuffer => if env.malloc p.inputPtrLength then {.block} else 0
  | .openFileCreatAndWrite =>
    if p.mode ≠ 0 ∧ (env.creatFile p.filename).isSome then {.file} else 0
  | .openFileUpdate =>
    match env.openFile p.filename with
    | none => 0
    | some (_, f) => if env.mmap f.size then {.mapping, .file} else 0
  | .openFileReadOnly =>
    match env.openFile p.filename with
    | none => 0
    | some (_, f) => if env.mmap f.size then {.mapping, .file} else {.file}
  | .safeInputBuffer => 0
  | .endValue => 0

/-- The caller's buffer stays the caller's, and no file is closed that `bkv_create` did not open. -/
def Clean (p : BkvCreate) (l_fd : Int) : Prop :=
  p.createType ≠ .safeInputBuffer ∧
    (p.createType = .openFileCreatAndWrite → p.mode = 0 → l_fd = -1)

def bufferGoods (o : Opened) (ptr : Nat) : Multiset Resource :=
  if o.fd = -1 then blockAt ptr else mappingAt ptr + {.file o.fd}

theorem kinds_blockAt {a : Nat} {ok : Bool} (h : a = 0 ↔ ok = false) :
    kinds (blockAt a) = if ok then {.block} else 0 := by
  cases ok with
  | false => rw [h.mpr rfl]; rfl
  | true => rw [blockAt_of_ne (mt h.mp (by decide))]; rfl

theorem bufferGoods_file {o : Opened} {fd : Nat} (h : o.fd = fd) (ptr : Nat) :
    bufferGoods o ptr = mappingAt ptr + {.file fd} := by
  rw [bufferGoods, h, if_neg (by omega)]

theorem openMapped_owns (env : Env) {file : String} (closes : Bool) {fd : Nat} {f : File}
    (hopen : env.openFile file = some (fd, f)) :
    Owns 0 (openMapped env file closes) fun ptr own =>
      (env.mmap f.size → own = mappingAt ptr + {.file fd}) ∧
        kinds own =
          if env.mmap f.size then {.mapping, .file} else if closes then 0 else {.file} := by
  rw [openMapped, hopen]
  refine (receive_owns _).bind fun _ own hown => ?_
  subst hown
  refine ((mmap_owns _).beside _).bind fun ptr own hown => ?_
  obtain ⟨own', rfl, hptr, rfl⟩ := hown
  rw [closeUnmapped]
  cases hmap : env.mmap f.size with
  | true =>
    have hne : ptr ≠ 0 := fun h => by simp [hptr.mp h] at hmap
    rw [if_neg fun h => hne h.2]
    refine Owns.pure ⟨fun _ => rfl, ?_⟩
    rw [mappingAt, if_neg hne]
    rfl
  | false =>
    obtain rfl := hptr.mpr hmap
    have hno : mappingAt 0 = 0 := rfl
    rw [hno, zero_add]
    cases closes with
    | true =>
      rw [if_pos ⟨rfl, rfl⟩]
      exact (discard_owns _ 0).bind fun _ own hown => Owns.pure ⟨nofun, hown ▸ rfl⟩
    | false =>
      rw [if_neg (by decide)]
      exact Owns.pure ⟨nofun, rfl⟩

/-- The two ways of opening a file that exists differ in their error only. -/
theorem bkvOpenFileReadonly_snd (env : Env) (file : String) :
    (bkvOpenFileReadonly env file).2 = (bkvOpenFileUpdate env file).2 := by
  rw [bkvOpenFileReadonly, bkvOpenFileUpdate]
  cases env.openFile file with
  | none => rfl
  | some e =>
    dsimp only
    split
    all_goals rfl

theorem openMapped_fills (env : Env) (file : String) (closes : Bool) :
    Owns 0 (openMapped env file closes) fun ptr own =>
      kinds own = (match env.openFile file with
        | none => 0
        | some (_, f) =>
          if env.mmap f.size then {.mapping, .file} else if closes then 0 else {.file}) ∧
      ∀ o, (bkvOpenFileUpdate env file).2 = some o → own = bufferGoods o ptr := by
  rw [bkvOpenFileUpdate]
  cases hopen : env.openFile file with
  | none =>
    rw [openMapped, hopen]
    exact Owns.pure ⟨rfl, fun o ho => by cases ho⟩
  | some e =>
    refine (openMapped_owns env closes hopen).mono fun ptr own hown => ⟨hown.2, fun o ho => ?_⟩
    dsimp only at ho
    split at ho
    · cases ho
    · rename_i hmap
      cases ho
      rw [bufferGoods_file rfl]
      exact hown.1 (by simpa using hmap)

theorem bufferOf_owns (env : Env) (id : Nat) {p : BkvCreate} {l_fd : Int} (hp : Clean p l_fd) :
    Owns 0 (bufferOf env p 0 l_fd) fun ptr own => kinds own = bufferKinds env p ∧
      ∀ o, (openBuffer env id p).2 = some o → own = bufferGoods o ptr := by
  rw [bufferOf, bufferKinds, openBuffer]
  cases hk : p.createType with
  | safeInputBuffer => exact absurd hk hp.1
  | endValue => exact Owns.pure ⟨rfl, fun o ho => by cases ho⟩
  | workInRam =>
    refine (malloc_owns _).mono fun ptr own hown => ?_
    obtain ⟨hptr, rfl⟩ := hown
    refine ⟨kinds_blockAt hptr, fun o ho => ?_⟩
    dsimp only at ho
    split at ho
    · cases ho
    · cases ho
      rfl
  | unsafeInputBuffer =>
    refine (malloc_owns _).mono fun ptr own hown => ?_
    obtain ⟨hptr, rfl⟩ := hown
    refine ⟨kinds_blockAt hptr, fun o ho => ?_⟩
    dsimp only at ho
    split at ho
    all_goals
      cases ho
      rfl
  | openFileCreatAndWrite =>
    dsimp only
    rw [openCreated, bkvOpenFileCreateWrite]
    by_cases hmode : p.mode = 0
    · rw [if_pos hmode, hp.2 hk hmode, if_pos hmode, if_neg fun h => h.1 hmode]
      exact Owns.pure ⟨rfl, fun o ho => by cases ho⟩
    rw [if_neg hmode, if_neg hmode]
    cases hcreat : env.creatFile p.filename with
    | none =>
      rw [if_neg (by simp)]
      exact Owns.pure ⟨rfl, fun o ho => by cases ho⟩
    | some fd =>
      rw [if_pos ⟨hmode, rfl⟩]
      refine (receive_owns _).bind fun _ own hown => Owns.pure ⟨hown ▸ rfl, fun o ho => ?_⟩
      cases ho
      rw [bufferGoods_file rfl]
      exact hown.trans (zero_add _).symm
  | openFileUpdate => exact openMapped_fills env p.filename true
  | openFileReadOnly =>
    dsimp only
    rw [bkvOpenFileReadonly_snd]
    exact openMapped_fills env p.filename false

/-- A new handle and all that was taken for it. -/
structure NewHandle (env : Env) (id : Nat) (p : BkvCreate) (own : Multiset Resource)
    (hd : Handle) : Prop where
  goods : own = hd.goods
  kinds : kinds own = .block ::ₘ bufferKinds env p
  noEnd : hd.endHdl = none
  sane : hd.Sane
  bkv : (bkvCreate env id p).2 = some hd.bkv
  room : hd.room = hd.bkv.memSize
  writable : hd.writable = decide (p.createType ≠ .openFileReadOnly)

/-- Without a handle, what was taken for it is lost. -/
def Created (env : Env) (id : Nat) (p : BkvCreate) (own : Multiset Resource) :
    Option Handle → Prop
  | some hd => NewHandle env id p own hd
  | none => kinds own = bufferKinds env p ∧ (bkvCreate env id p).2 = none

theorem bkvCreate_none {id : Nat} {p : BkvCreate}
    (h : (openBuffer env id p).2 = none ∨ env.mallocHandle = false) :
    (bkvCreate env id p).2 = none := by
  rw [bkvCreate]
  split
  · rfl
  · rename_i l_ret o hopen
    rw [hopen] at h
    rw [if_pos (by simpa using h)]

theorem bkvCreate_some {id : Nat} {p : BkvCreate} {o : Opened}
    (hopen : (openBuffer env id p).2 = some o) (hmalloc : env.mallocHandle) :
    ∃ h, (bkvCreate env id p).2 = some h ∧ h.fd = o.fd ∧ h.endHdl = none := by
  have ho : openBuffer env id p = ((openBuffer env id p).1, some o) := Prod.ext rfl hopen
  rw [bkvCreate, ho]
  dsimp only
  rw [if_neg (by simp [hmalloc])]
  exact ⟨_, rfl, rfl, rfl⟩

theorem handleOf_owns {env : Env} {id : Nat} {p : BkvCreate} {ptr : Nat} {own : Multiset Resource}
    (hkinds : kinds own = bufferKinds env p)
    (hown : ∀ o, (openBuffer env id p).2 = some o → own = bufferGoods o ptr) :
    Owns own (handleOf env id p ptr) fun hd own => Created env id p own hd := by
  rw [handleOf]
  cases hopen : (openBuffer env id p).2 with
  | none => exact Owns.pure ⟨hkinds, bkvCreate_none (.inl hopen)⟩
  | some o =>
    rw [if_pos (by simp)]
    refine ((malloc_owns _).beside own).bind fun self own' hself => ?_
    obtain ⟨own', rfl, hself, rfl⟩ := hself
    cases hmalloc : env.mallocHandle with
    | false =>
      rw [hself.mpr hmalloc, bkvCreate_none (.inr hmalloc)]
      exact Owns.pure ⟨(congrArg kinds (zero_add own)).trans hkinds, bkvCreate_none (.inr hmalloc)⟩
    | true =>
      have hne : self ≠ 0 := mt hself.mp (by simp [hmalloc])
      obtain ⟨h, hcreate, hfd, hend⟩ := bkvCreate_some hopen hmalloc
      rw [hcreate, blockAt_of_ne hne, Multiset.singleton_add]
      refine Owns.pure ⟨?_, ?_, rfl, ⟨congrArg Option.isSome hend.symm, fun _ _ he => ?_⟩, hcreate, rfl,
        rfl⟩
      rotate_right
      · cases he
      · rw [hown o hopen, bufferGoods, ← hfd]
        by_cases hram : h.fd = -1
        · rw [Handle.goods_ram hram, if_pos hram, ← Multiset.singleton_add, add_comm]
          rfl
        · rw [Handle.goods_file hram, if_neg hram, ← Multiset.singleton_add, add_comm, add_assoc,
            add_comm {_} {_}]
          rfl
      · rw [← hkinds]
        exact Multiset.map_cons ..

theorem create_owns (env : Env) (id : Nat) {p : BkvCreate} {l_fd : Int} (hp : Clean p l_fd) :
    Owns 0 (create env id p 0 l_fd) fun r own =>
      r.1 = (bkvCreate env id p).1 ∧ Created env id p own r.2 :=
  (bufferOf_owns env id hp).bind fun _ _ hown =>
    (handleOf_owns hown.1 hown.2).bind fun _ _ hcreated => Owns.pure ⟨rfl, hcreated⟩

/-- A copy whose handle cannot be allocated. -/
def copyLoss (env : Env) (id : Nat) (h : Bkv) (p_val : BkvVal) : Multiset ResourceKind :=
  if Copies h p_val ∧ (bkvCreate env id (copyOf h (offsetOf p_val))).2 = none then
    bufferKinds env (copyOf h (offsetOf p_val)) else 0

theorem unsafe_ok {id : Nat} {p : BkvCreate} {h : Bkv} (hp : p.createType = .unsafeInputBuffer)
    (hcreate : (bkvCreate env id p).2 = some h) :
    (bkvCreate env id p).1 = bkvOk ∧ h.fd = -1 := by
  have hopen : (openBuffer env id p).1 = bkvOk ∧
      ∀ o, (openBuffer env id p).2 = some o → o.fd = -1 := by
    rw [openBuffer, hp]
    dsimp only
    split
    all_goals
      refine ⟨rfl, fun o ho => ?_⟩
      cases ho
      rfl
  rw [bkvCreate] at hcreate ⊢
  split
  · rename_i hnone
    rw [hnone] at hcreate
    cases hcreate
  · rename_i hsome
    rw [hsome] at hcreate hopen
    dsimp only at hcreate
    split at hcreate
    · cases hcreate
    · rename_i hmalloc
      rw [if_neg hmalloc]
      cases hcreate
      exact ⟨hopen.1, hopen.2 _ rfl⟩

/-- Without a buffer it has no bytes. -/
theorem NewHandle.empty {id : Nat} {p : BkvCreate} {own : Multiset Resource}
    (hnew : NewHandle env id p own hd) (hp : p.createType = .unsafeInputBuffer)
    (hptr : hd.ptr = 0) : hd.bkv.writeOffset = 0 := by
  obtain ⟨-, hfd⟩ := unsafe_ok hp hnew.bkv
  have hkinds := hnew.kinds
  rw [hnew.goods, Handle.goods_ram hfd, hptr, Handle.kept, hnew.noEnd, bufferKinds, hp] at hkinds
  have hmalloc : env.malloc p.inputPtrLength = false := by
    cases hm : env.malloc p.inputPtrLength with
    | false => rfl
    | true =>
      dsimp only at hkinds
      rw [if_pos hm] at hkinds
      exact absurd (congrArg Multiset.card hkinds) (by simp [blockAt, Life.kinds])
  have hbkv := hnew.bkv
  rw [bkvCreate, openBuffer, hp] at hbkv
  simp only [hmalloc, Bool.not_false, if_true] at hbkv
  split at hbkv
  · cases hbkv
  · rw [← Option.some.inj hbkv]

theorem copyOf_clean (h : Bkv) (l_offset l_fd : Int) : Clean (copyOf h l_offset) l_fd := by
  constructor <;> simp [copyOf]

/-- What `bkv_write_offset_set` changes of a handle that ties it to the system. -/
theorem offsetSet_cases (env : Env) (id : Nat) (h : Bkv) (p_val : BkvVal) :
    (bkvWriteOffsetSet env id h p_val).2.1 = h ∧
        (Copies h p_val → (bkvCreate env id (copyOf h (offsetOf p_val))).2 = none) ∨
      (Copies h p_val ∧ (bkvCreate env id (copyOf h (offsetOf p_val))).2.isSome ∧
        (bkvWriteOffsetSet env id h p_val).2.1.fd = h.fd ∧
        (bkvWriteOffsetSet env id h p_val).2.1.endHdl =
          (bkvCreate env id (copyOf h (offsetOf p_val))).2.map Bkv.toTail) := by
  rw [bkvWriteOffsetSet]
  split
  · rename_i hend
    exact .inl ⟨rfl, fun hc => by simp [Option.isNone_iff_eq_none.mp hc.1] at hend⟩
  rename_i hend
  dsimp only
  split
  · rename_i hlow
    exact .inl ⟨rfl, fun hc => absurd hlow (not_lt.mpr hc.2.1)⟩
  rename_i hlow
  split
  · rename_i hhigh
    exact .inl ⟨rfl, fun hc => absurd hhigh (not_lt.mpr hc.2.2)⟩
  rename_i hhigh
  split
  · rename_i hcreate
    exact .inl ⟨rfl, fun _ => congrArg Prod.snd hcreate⟩
  rename_i hcreate
  obtain ⟨hok, -⟩ := unsafe_ok (p := copyOf h (offsetOf p_val)) rfl (congrArg Prod.snd hcreate)
  rw [if_neg (not_not_intro ((congrArg Prod.fst hcreate).symm.trans hok))]
  have hsome := congrArg Prod.snd hcreate
  refine .inr ⟨⟨by simpa using hend, not_lt.mp hlow, not_lt.mp hhigh⟩, ?_, rfl, ?_⟩
  · exact Option.isSome_iff_exists.mpr ⟨_, hsome⟩
  · exact (congrArg (Option.map Bkv.toTail) hsome).symm

theorem Handle.Sane.endHdl (hsane : hd.Sane) (h : hd.bkv.endHdl.isNone) : hd.endHdl = none := by
  have hsame := hsane.same
  rw [Option.isNone_iff_eq_none.mp h] at hsame
  exact Option.not_isSome_iff_eq_none.mp (by simp [hsame])

/-- The copy is kept in the handle. -/
theorem goods_copied {e : Handle} (hend : hd.endHdl = none) (he : e.endHdl = none)
    (heram : e.bkv.fd = -1) (hfd : h.fd = hd.bkv.fd) :
    e.goods + hd.goods =
      Handle.goods { hd with endHdl := some (e.self, e.ptr), bkv := h } := by
  have hkept : hd.kept = 0 := by rw [Handle.kept, hend]
  have hekept : e.kept = 0 := by rw [Handle.kept, he]
  have hkept' : Handle.kept { hd with endHdl := some (e.self, e.ptr), bkv := h } =
      .block e.self ::ₘ blockAt e.ptr := rfl
  rw [Handle.goods_ram heram, hekept]
  by_cases hram : hd.bkv.fd = -1
  · rw [Handle.goods_ram hram, Handle.goods_ram (hfd.trans hram), hkept, hkept']
    simp only [← Multiset.singleton_add, add_zero]
    ac_rfl
  · rw [Handle.goods_file hram, Handle.goods_file (hfd ▸ hram), hkept, hkept', ← hfd]
    simp only [← Multiset.singleton_add, add_zero]
    ac_rfl

/-- What is put aside is there, and the stack has an entry for the new depth. -/
def Handle.GivesCopy (env : Env) (id : Nat) (hd : Handle) (p_val : BkvVal) : Prop :=
  Copies hd.bkv p_val → hd.Reads (copiedBy env hd.bkv p_val) ∧ Placed env id hd.bkv p_val

instance (env : Env) (id : Nat) (hd : Handle) (p_val : BkvVal) :
    Decidable (hd.GivesCopy env id p_val) :=
  inferInstanceAs (Decidable (_ → _ ∧ _))

theorem setWriteOffset_fails {id : Nat} {p_val : BkvVal} (hcopy : ¬hd.GivesCopy env id p_val) :
    Fails hd.goods (setWriteOffset env id hd p_val) := by
  obtain ⟨hc, hcopy⟩ := Classical.not_imp.mp hcopy
  refine (touch_owns (self_mem_goods hd)).bind_fails fun _ own hown => ?_
  subst hown
  rw [if_pos hc]
  by_cases hreads : hd.Reads (copiedBy env hd.bkv p_val)
  · refine (read_owns hreads place_mem_goods).bind_fails fun _ own hown => ?_
    subst hown
    refine ((create_owns env id (copyOf_clean ..)).beside _).bind_fails fun r own _ => ?_
    rw [if_neg fun hplaced => hcopy ⟨hreads, hplaced⟩]
    exact Fails.failure
  · exact (read_fails hreads).bind _

theorem setWriteOffset_owns {id : Nat} {p_val : BkvVal} (hcopy : hd.GivesCopy env id p_val)
    (hsane : hd.Sane) :
    Owns hd.goods (setWriteOffset env id hd p_val) fun hd' own =>
      (∃ lost, own = hd'.goods + lost ∧ kinds lost = copyLoss env id hd.bkv p_val) ∧
        hd'.bkv = (bkvWriteOffsetSet env id hd.bkv p_val).2.1 ∧ hd'.Sane := by
  refine (touch_owns (self_mem_goods hd)).bind fun _ own hown => ?_
  subst hown
  by_cases hc : Copies hd.bkv p_val
  · have hend := hsane.endHdl hc.1
    rw [if_pos hc]
    refine (read_owns (hcopy hc).1 place_mem_goods).bind fun _ own hown => ?_
    subst hown
    refine ((create_owns env id (copyOf_clean ..)).beside _).bind fun r own hown => ?_
    rw [if_pos (hcopy hc).2]
    obtain ⟨l_ret, e⟩ := r
    obtain ⟨own, rfl, -, hown⟩ := hown
    cases e with
    | none =>
      obtain ⟨hkinds, hnone⟩ := hown
      have hkept := (offsetSet_cases env id hd.bkv p_val).resolve_right fun h => by
        simp [hnone] at h
      have hsame : { hd with endHdl := none, bkv := hd.bkv } = hd := by rw [← hend]
      rw [hkept.1, Option.map_none, hsame]
      refine Owns.pure ⟨⟨own, add_comm .., ?_⟩, rfl, hsane⟩
      rw [copyLoss, if_pos ⟨hc, hnone⟩]
      exact hkinds
    | some e =>
      have hnew : NewHandle env id (copyOf hd.bkv (offsetOf p_val)) own e := hown
      obtain ⟨rfl, -, he, -, hsome, -⟩ := hown
      have hset := (offsetSet_cases env id hd.bkv p_val).resolve_left fun h => by
        simp [h.2 hc] at hsome
      have htail := hset.2.2.2
      rw [hsome] at htail
      refine Owns.pure ⟨⟨0, ?_, ?_⟩, rfl, congrArg Option.isSome htail.symm, ?_⟩
      rotate_right
      · intro e' a he' ha hptr
        cases he'
        cases htail.symm.trans ha
        exact hnew.empty rfl hptr
      · rw [add_zero]
        exact goods_copied hend he (unsafe_ok rfl hsome).2 hset.2.2.1
      · rw [copyLoss, if_neg fun h => by simp [h.2] at hsome]
        rfl
  · rcases offsetSet_cases env id hd.bkv p_val with ⟨hkept, -⟩ | ⟨hyes, -⟩
    · rw [if_neg hc, hkept]
      refine Owns.pure ⟨⟨0, (add_zero _).symm, ?_⟩, rfl, hsane⟩
      rw [copyLoss, if_neg fun h => hc h.1]
      rfl
    · exact absurd hyes hc

/-- What a handle leaves behind: what lies behind `end_hdl`, and on a file the handle itself. -/
def Handle.remains (hd : Handle) : Multiset Resource :=
  if hd.bkv.fd = -1 then hd.kept else .block hd.self ::ₘ hd.kept

/-- The handle is still there, or all but its remains was given back. -/
def Ended (hd : Handle) (own : Multiset Resource) : Option Handle → Prop
  | some hd' => own = hd'.goods ∧ hd'.Sane
  | none => own = hd.remains

theorem releaseRam_owns (hsane : hd.Sane) (hram : hd.bkv.fd = -1) :
    Owns hd.goods (releaseRam hd) fun r own => Ended hd own r := by
  rw [releaseRam]
  by_cases hptr : hd.ptr = 0
  · rw [if_pos hptr]
    exact Owns.pure ⟨rfl, hsane⟩
  · rw [if_neg hptr, Handle.goods_ram hram, blockAt_of_ne hptr, Multiset.singleton_add]
    refine (release_owns _ _).bind fun _ own hown => ?_
    subst hown
    refine (release_owns _ _).bind fun _ own hown => Owns.pure ?_
    rw [hown]
    exact (if_pos hram).symm

/-- The handle that `bkv_finalize` goes on with. -/
def ended (env : Env) (h : Bkv) : Bkv :=
  match h.endHdl with
  | none => h
  | some a => (bkvAppend env h a).2

/-- There is room for what `bkv_finalize` appends. -/
def Handle.TakesEnd (env : Env) (hd : Handle) : Prop :=
  ∀ a ∈ hd.bkv.endHdl, hd.TakesTail env a

instance (env : Env) (hd : Handle) : Decidable (hd.TakesEnd env) :=
  inferInstanceAs (Decidable (∀ a ∈ hd.bkv.endHdl, _))

theorem Handle.Sane.cases (hsane : hd.Sane) : hd.endHdl = none ∧ hd.bkv.endHdl = none ∨
    ∃ e a, hd.endHdl = some e ∧ hd.bkv.endHdl = some a ∧ (e.2 = 0 → a.writeOffset = 0) := by
  have hsame := hsane.same
  cases hend : hd.endHdl with
  | none =>
    rw [hend] at hsame
    exact .inl ⟨rfl, Option.not_isSome_iff_eq_none.mp (by simp [← hsame])⟩
  | some e =>
    rw [hend] at hsame
    obtain ⟨a, ha⟩ := Option.isSome_iff_exists.mp hsame.symm
    exact .inr ⟨e, a, rfl, ha, hsane.copy e a hend ha⟩

theorem readCopy_owns {e : Nat × Nat} {a : Tail} (hend : hd.endHdl = some e)
    (hempty : e.2 = 0 → a.writeOffset = 0) :
    Owns (hd.goods + 0) (readCopy e.2 a) fun _ own => own = hd.goods + 0 := by
  rw [readCopy]
  by_cases hnone : a.writeOffset = 0
  · rw [if_pos hnone]
    exact Owns.pure rfl
  · rw [if_neg hnone]
    refine touch_owns ?_
    rw [add_zero, Handle.goods, Handle.kept, hend]
    simp [blockAt_of_ne (mt hempty hnone)]

theorem end_mem_goods {e : Nat × Nat} (hend : hd.endHdl = some e) : .block e.1 ∈ hd.goods + 0 := by
  rw [add_zero, Handle.goods, Handle.kept, hend]
  simp

theorem appendEnd_owns (hsane : hd.Sane) (hfit : hd.TakesEnd env) : Owns hd.goods (appendEnd env hd)
    fun hd' own => own = hd'.goods ∧ hd'.bkv = ended env hd.bkv ∧ hd'.endHdl = hd.endHdl := by
  rw [appendEnd, ended]
  rcases hsane.cases with ⟨hend, hnone⟩ | ⟨e, a, hend, ha, hempty⟩
  · rw [hend, hnone]
    exact Owns.pure ⟨rfl, rfl, hend⟩
  · rw [hend, ha, ← add_zero hd.goods]
    refine (append_owns (end_mem_goods hend) (hfit a ha) fun _ hd' hkept _ =>
      readCopy_owns (hkept.trans hend) hempty).mono fun hd' own hown => ?_
    obtain ⟨hgoods, hbkv, hkept, -⟩ := hown
    exact ⟨hgoods.trans (add_zero _), hbkv, hkept.trans hend⟩

theorem appendEnd_fails (hsane : hd.Sane) (hfit : ¬hd.TakesEnd env) :
    Fails hd.goods (appendEnd env hd) := by
  rw [appendEnd]
  rcases hsane.cases with ⟨hend, hnone⟩ | ⟨e, a, hend, ha, hempty⟩
  · exact absurd (fun a ha => by simp [hnone] at ha) hfit
  · have hbad : ¬hd.TakesTail env a := fun h => hfit fun a' ha' => by
      rw [ha] at ha'
      cases ha'
      exact h
    rw [hend, ha, ← add_zero hd.goods]
    refine append_fails (end_mem_goods hend) (Classical.not_imp.mp hbad).1 fun hd' hkept hst => ?_
    refine (readCopy_owns (hkept.trans hend) hempty).bind_fails fun _ own hown => ?_
    exact (store_fails (mt hst.mp hbad)).bind _

theorem finalize_ended (env : Env) (h : Bkv) : bkvFinalize env h =
    if (ended env h).fd ≠ -1 then
      (bkvFileTruncate env (ended env h).fd (ended env h).memSize, some (ended env h))
    else (0, none) :=
  rfl

theorem ended_fd (env : Env) (h : Bkv) : (ended env h).fd = h.fd := by
  rw [ended]
  split
  · rfl
  · exact append_fd env h _

theorem ended_endHdl (env : Env) (h : Bkv) : (ended env h).endHdl = h.endHdl := by
  rw [ended]
  split
  · rfl
  · rw [append_endHdl]

theorem finalize_fails (hsane : hd.Sane) (hfit : ¬hd.TakesEnd env) :
    Fails hd.goods (finalize env hd) := by
  refine (touch_owns (self_mem_goods hd)).bind_fails fun _ own hown => ?_
  subst hown
  exact (appendEnd_fails hsane hfit).bind _

theorem finalize_owns (hsane : hd.Sane) (hfit : hd.TakesEnd env) : Owns hd.goods (finalize env hd)
    fun r own => r.1 = (bkvFinalize env hd.bkv).1 ∧ Ended hd own r.2 := by
  refine (touch_owns (self_mem_goods hd)).bind fun _ own hown => ?_
  subst hown
  refine (appendEnd_owns hsane hfit).bind fun hd' own hown => ?_
  obtain ⟨rfl, hbkv, hend⟩ := hown
  have hfd := ended_fd env hd.bkv
  rw [← hbkv] at hfd
  have hkept : hd'.bkv.endHdl = hd.bkv.endHdl := by rw [hbkv, ended_endHdl]
  have hsane' : hd'.Sane := hsane.kept hend hkept
  rw [finalize_ended, ← hbkv]
  by_cases hram : hd'.bkv.fd = -1
  · have hremains : hd'.remains = hd.remains := by
      rw [Handle.remains, Handle.remains, if_pos hram, if_pos (hfd ▸ hram), Handle.kept,
        Handle.kept, hend]
    rw [if_pos hram, if_neg (not_not_intro hram)]
    refine (releaseRam_owns hsane' hram).bind fun r own hown => Owns.pure ⟨rfl, ?_⟩
    cases r with
    | none => exact hown.trans hremains
    | some r => exact hown
  · rw [if_neg hram, if_pos hram]
    exact Owns.pure ⟨rfl, rfl, hsane'⟩

theorem fileClose_owns (fd : Int) (ptr : Nat) (rest : Multiset Resource) :
    Owns (mappingAt ptr + .file fd ::ₘ rest) (fileClose fd ptr)
      fun l_ret own => l_ret = 0 ∧ own = rest := by
  refine (munmap_owns ptr _).bind fun _ own hown => ?_
  subst hown
  exact (discard_owns _ rest).bind fun _ own hown => Owns.pure ⟨rfl, hown⟩

theorem destroy_owns (hsane : hd.Sane) : Owns hd.goods (destroy hd)
    fun r own => r.1 = 0 ∧ Ended hd own r.2 ∧ (hd.bkv.fd ≠ -1 → r.2 = none) := by
  refine (touch_owns (self_mem_goods hd)).bind fun _ own hown => ?_
  subst hown
  by_cases hram : hd.bkv.fd = -1
  · rw [if_pos hram]
    exact (releaseRam_owns hsane hram).bind fun r own hown =>
      Owns.pure ⟨rfl, hown, fun h => absurd hram h⟩
  · rw [if_neg hram, Handle.goods_file hram, Multiset.cons_swap]
    refine (fileClose_owns _ _ _).bind fun l_ret own hown => Owns.pure ⟨hown.1, ?_, fun _ => rfl⟩
    exact hown.2.trans (if_neg hram).symm

end Wtools.Life
