import Wtools.Bounds

/-!
# Failed growth of the buffer

`bkv_mem_truncate` reports that there is no memory with `BKV_HDL_MEM`, and `bkv_prepare` hands this
on. The writer functions compare its result with -1, so none of them sees the failure.
-/

namespace Wtools
open ByteMemory

/-- The handles that calls of the writer reach on a document in RAM; the surroundings may answer
every call in another way. -/
inductive Written : Bkv → Prop
  | created {env : Env} {h : Bkv} (hf : FreshRam env h) : Written h
  | call {h : Bkv} (env : Env) (c : Call) (hw : Written h) : Written (exec env h c).2

/-- The size that `bkv_prepare` asks `realloc` for. -/
def nextSize (h : Bkv) : Int :=
  let chunk := if h.memChunkSize = -1 then bkvDefaultMemChunkSize else h.memChunkSize
  (h.memSize.tdiv chunk + 1) * chunk

/-- The buffer is too small for what the call asks for, and `realloc` fails. -/
def GrowthFails (env : Env) (h : Bkv) (c : Call) : Prop :=
  h.memSize < (h.writeOffset + c.asked / 8 : Nat) ∧ env.realloc (nextSize h) = false

instance (env : Env) (h : Bkv) (c : Call) : Decidable (GrowthFails env h c) :=
  inferInstanceAs (Decidable (_ ∧ _))

/-- The call fails, stores nothing and leaves every field of the handle as it was. -/
def Harmless (env : Env) (h : Bkv) (c : Call) : Prop :=
  (exec env h c).1 ≠ bkvOk ∧ (exec env h c).2 = h

/-- The check of the key or of the state refuses the call. -/
def Refused (h : Bkv) (c : Call) : Prop := c.inRange = false ∨ checkFor h c = -1

variable {env : Env} {h : Bkv} {c : Call}

theorem Written.ram (hw : Written h) : h.fd = -1 ∧ h.maxSize = -1 := by
  induction hw with
  | created hf =>
    obtain ⟨id, chunk, rfl⟩ := hf.eq
    exact ⟨rfl, rfl⟩
  | @call h env c hw ih =>
    rw [exec_eq env ih.1]
    split
    · exact ih
    · split
      · exact ih
      · exact ⟨(after_fd env h c).trans ih.1, (after_room env h c).2.2.2.1.trans ih.2⟩

theorem bkvPrepare_fails (hw : Written h) (hfail : GrowthFails env h c) :
    bkvPrepare env h c.asked = (bkvHdlMem, h) := by
  obtain ⟨hfd, hmax⟩ := hw.ram
  obtain ⟨hneeds, hre⟩ := hfail
  rw [nextSize] at hre
  rw [bkvPrepare, if_pos hneeds]
  simp only [hfd, hmax, ne_eq, not_true_eq_false, false_and, if_false, bkvMemTruncate, hre,
    Bool.false_eq_true]
  rfl

/-- When the buffer cannot grow, a call is harmless exactly when it was refused before it asked for
memory. -/
theorem failed_growth_harmless_iff (env : Env) (h : Bkv) (c : Call) (hw : Written h)
    (hfail : GrowthFails env h c) :
    bkvPrepare env h c.asked = (bkvHdlMem, h) ∧ (Harmless env h c ↔ Refused h c) := by
  refine ⟨bkvPrepare_fails hw hfail, ?_⟩
  rw [Harmless, Refused, exec_eq env hw.ram.1]
  by_cases hin : c.inRange = false
  · rw [if_pos hin]
    exact iff_of_true ⟨(by decide : bkvKeyOutOfRange ≠ bkvOk), rfl⟩ (Or.inl hin)
  · rw [if_neg hin]
    by_cases hc : checkFor h c = -1
    · rw [if_pos hc]
      exact iff_of_true ⟨(by decide : bkvHdlInv ≠ bkvOk), rfl⟩ (Or.inr hc)
    · rw [if_neg hc]
      apply iff_of_false
      · rintro ⟨hok, -⟩
        exact hok rfl
      · rintro (h | h)
        · exact hin h
        · exact hc h

/-- Surroundings in which nothing can grow. -/
def fullEnv : Env := { calmEnv with realloc := fun _ => false }

/-- A document that has filled the first chunk of the buffer up to two bytes. -/
def nearlyFull : Bkv :=
  (exec calmEnv (exec calmEnv ramHandle (.opening .map 1)).2
    (.add (.keyed 2 (.str (List.replicate 118 97))))).2

theorem nearlyFull_written : Written nearlyFull :=
  .call calmEnv _ (.call calmEnv _ (.created ramHandle_fresh))

theorem failed_growth_harmless_array : GrowthFails fullEnv nearlyFull (.add (.elem (.u64 5))) ∧
    (Harmless fullEnv nearlyFull (.add (.elem (.u64 5))) ↔
      Refused nearlyFull (.add (.elem (.u64 5)))) :=
  ⟨by decide +kernel, (failed_growth_harmless_iff fullEnv nearlyFull _ nearlyFull_written
    (by decide +kernel)).2⟩

/-- A member is stored across the end of the buffer, and the call returns `BKV_OK`. -/
theorem failed_growth_overruns : Written nearlyFull ∧
    GrowthFails fullEnv nearlyFull (.add (.keyed 3 (.u32 5))) ∧
    ¬Harmless fullEnv nearlyFull (.add (.keyed 3 (.u32 5))) ∧
    (exec fullEnv nearlyFull (.add (.keyed 3 (.u32 5)))).1 = bkvOk ∧
    (exec fullEnv nearlyFull (.add (.keyed 3 (.u32 5)))).2.memSize = 128 ∧
    131 ∈ (exec fullEnv nearlyFull (.add (.keyed 3 (.u32 5)))).2.stores := by
  refine ⟨nearlyFull_written, by decide +kernel, ?_, by decide +kernel, by decide +kernel,
    by decide +kernel⟩
  rintro ⟨hok, -⟩
  exact hok (by decide +kernel)

end Wtools
