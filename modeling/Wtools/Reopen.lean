import Wtools.Insertion

/-!
# Reopening a file

A document written to a file, finalized, and opened again for reading. `bkv_finalize` leaves
`mem_size` bytes in the file, and they are what is mapped again; but the write offset of a handle
opened for reading is 0, and that is the length `bkv_get_head` reports.
-/

namespace Wtools
open ByteMemory Forest

/-- The file behind a handle once it is truncated to the size of the mapping. -/
def fileOf (h : Bkv) : File := ⟨h.ptr, h.memSize.toNat⟩

/-- `h` is a new file with a closed document, and `ro` that file opened for reading after
`bkv_finalize`. -/
structure Reopening (env env' : Env) (cs : List Call) (h ro : Bkv) : Prop where
  closed : h.state = .term
  steps : ∃ id id' p p' h₀ final fd,
    p.createType = .openFileCreatAndWrite ∧ p'.createType = .openFileReadOnly ∧
    p'.filename = p.filename ∧ bkvCreate env id p = (bkvOk, some h₀) ∧
    runOk env h₀ cs = some h ∧ bkvFinalize env h = (bkvOk, some final) ∧
    env'.openFile p'.filename = some (fd, fileOf final) ∧ bkvCreate env' id' p' = (bkvOk, some ro)

/-- The document is there again. -/
structure Reopened (h ro : Bkv) : Prop where
  covered : h.writeOffset ≤ (bkvGetHead ro).size
  bytes : AgreeOn (bkvGetHead h).mem (bkvGetHead ro).mem 0 h.writeOffset
  closed : bkvKvClosed ro
  callbacks : rootEvents (bkvGetHead ro) = rootEvents (bkvGetHead h)

variable {env env' : Env} {h ro : Bkv}

theorem readonly_handle {id fd : Nat} {p : BkvCreate} {f : File}
    (hp : p.createType = .openFileReadOnly) (hf : env.openFile p.filename = some (fd, f))
    (hcreate : bkvCreate env id p = (bkvOk, some ro)) :
    ro.ptr = f.bytes ∧ ro.memSize = f.size ∧ ro.state = .term ∧ ro.writeOffset = 0 := by
  simp only [bkvCreate, openBuffer, hp, bkvOpenFileReadonly, hf] at hcreate
  split at hcreate
  · cases hcreate
  · rename_i hopen
    split at hopen
    · cases hopen
    · cases hopen
      split at hcreate
      · cases hcreate
      · cases hcreate
        exact ⟨rfl, rfl, rfl, rfl⟩

theorem finalize_closed {final : Bkv} {r : Int} (hend : h.endHdl = none)
    (hf : bkvFinalize env h = (r, some final)) : final = h := by
  rw [bkvFinalize, hend] at hf
  dsimp only at hf
  split at hf
  · exact (Option.some.inj (congrArg Prod.snd hf)).symm
  · cases congrArg Prod.snd hf

theorem created_endHdl {id : Nat} {p : BkvCreate} {h₀ : Bkv} {r : Int}
    (hcreate : bkvCreate env id p = (r, some h₀)) : h₀.endHdl = none := by
  rw [bkvCreate] at hcreate
  split at hcreate
  · cases hcreate
  · split at hcreate
    · cases hcreate
    · cases hcreate
      rfl

/-- The bytes are in the file and the handle is closed, but the zone to read is empty. -/
theorem reopened_length_zero (env env' : Env) (cs : List Call) (h ro : Bkv)
    (hr : Reopening env env' cs h ro) :
    AgreeOn (bkvGetHead h).mem (bkvGetHead ro).mem 0 h.writeOffset ∧ bkvKvClosed ro ∧
      (bkvGetHead ro).size = 0 ∧ 0 < h.writeOffset ∧ ¬Reopened h ro := by
  obtain ⟨id, id', p, p', h₀, final, fd, hp, hp', -, hcreate, hrun, hfin, hfile, hopen⟩ := hr.steps
  obtain ⟨hfd, hs⟩ := created_inRam hp hcreate
  obtain ⟨hram, -⟩ := runOk_inRam hfd hrun
  obtain ⟨-, key, body, -, -, -, hw⟩ := hs.closed hram hr.closed
  have hend : h.endHdl = none := by
    rw [runOk_endHdl hfd hrun]
    exact created_endHdl hcreate
  obtain rfl : final = h := finalize_closed hend hfin
  obtain ⟨hptr, -, hstate, hzero⟩ := readonly_handle hp' hfile hopen
  have hpos : 0 < final.writeOffset := by
    have hsize : final.writeOffset = size (.node (.map, key) body .nil) := hw
    rw [hsize, size, Kind.openWidth]
    omega
  have hagree : AgreeOn (bkvGetHead final).mem (bkvGetHead ro).mem 0 final.writeOffset := by
    intro i _ _
    exact (congrFun hptr i).symm
  have hclosed : bkvKvClosed ro := by
    rw [bkvKvClosed, hstate]
    rfl
  refine ⟨hagree, hclosed, hzero, hpos, ?_⟩
  intro hopened
  have hcovered := hopened.covered
  rw [show (bkvGetHead ro).size = 0 from hzero] at hcovered
  omega

/-- Surroundings in which `test_file.db` holds a document of two numbers. -/
def reopenEnv : Env :=
  { calmEnv with openFile := fun name =>
      if name = "test_file.db" then some (4, fileOf numbersFile) else none }

def reopenedNumbers : Bkv :=
  (bkvCreate reopenEnv 1 { bkvCreateInit with
    createType := .openFileReadOnly, filename := "test_file.db" }).2.getD ramHandle

theorem numbers_reopening : Reopening calmEnv reopenEnv [.opening .map 0, .add (.keyed 5 (.u32 7)),
    .add (.keyed 6 (.u16 9)), .closing .map] numbersFile reopenedNumbers :=
  ⟨rfl, 0, 1, { bkvCreateInit with
      createType := .openFileCreatAndWrite, filename := "test_file.db", mode := 0x1FF },
    { bkvCreateInit with createType := .openFileReadOnly, filename := "test_file.db" },
    newFile, numbersFile, 4, rfl, rfl, rfl, rfl, rfl, rfl, rfl, rfl⟩

theorem reopened_length_zero_numbers :
    AgreeOn (bkvGetHead numbersFile).mem (bkvGetHead reopenedNumbers).mem 0 16 ∧
      bkvKvClosed reopenedNumbers ∧ (bkvGetHead reopenedNumbers).size = 0 ∧ 0 < 16 ∧
      ¬Reopened numbersFile reopenedNumbers :=
  reopened_length_zero calmEnv reopenEnv _ numbersFile reopenedNumbers numbers_reopening

/-- The document of 16 bytes is reported with a length of 0, and not a byte of it may be read. -/
theorem reopened_document_empty :
    Reopening calmEnv reopenEnv [.opening .map 0, .add (.keyed 5 (.u32 7)),
      .add (.keyed 6 (.u16 9)), .closing .map] numbersFile reopenedNumbers ∧
    (bkvGetHead numbersFile).size = 16 ∧ (bkvGetHead reopenedNumbers).size = 0 ∧
    rootEvents (bkvGetHead reopenedNumbers) = .error (.read 0) ∧
    ¬Reopened numbersFile reopenedNumbers := by
  refine ⟨numbers_reopening, rfl, rfl, rfl, ?_⟩
  intro h
  exact absurd h.covered (by decide)

end Wtools
