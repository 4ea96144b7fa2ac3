import Wtools.Layout

/-!
# Writing to a file

A handle on a file differs from one in RAM in how its buffer grows. A call that succeeds does
to it what the same call does to the handle in RAM, so a document written to a file lies in
the mapping as it would in RAM.
-/

namespace Wtools
open ByteMemory Forest

def Bkv.inRam (h : Bkv) : Bkv := { h with fd := -1 }

/-- Surroundings in which memory grows whenever the file would. -/
def Env.paged (env : Env) : Env := { env with realloc := fun n => bkvFileCreateAndMmap env n = bkvOk }

variable {env : Env} {h : Bkv}

theorem prepare_inRam (env : Env) (hfd : h.fd ≠ -1) (n : Nat) :
    (bkvPrepare env.paged h.inRam n).2 = (bkvPrepare env h n).2.inRam := by
  have hram : h.inRam.memSize = h.memSize ∧ h.inRam.writeOffset = h.writeOffset ∧
      h.inRam.memChunkSize = h.memChunkSize ∧ h.inRam.maxSize = h.maxSize := ⟨rfl, rfl, rfl, rfl⟩
  rw [bkvPrepare, bkvPrepare, hram.1, hram.2.1, hram.2.2.1, hram.2.2.2]
  by_cases hroom : h.memSize < (h.writeOffset + n / 8 : Nat)
  · rw [if_pos hroom, if_pos hroom]
    generalize hsize : (h.memSize.tdiv (if h.memChunkSize = -1 then bkvDefaultMemChunkSize
      else h.memChunkSize) + 1) * (if h.memChunkSize = -1 then bkvDefaultMemChunkSize
      else h.memChunkSize) = l_new_size
    by_cases hmax : h.maxSize ≠ -1 ∧ l_new_size > h.maxSize
    · simp [Bkv.inRam, hsize, hmax, bkvInvArg, bkvOk]
    · by_cases hgrow : bkvFileCreateAndMmap env l_new_size = bkvOk
      · simp [Bkv.inRam, hsize, hmax, hfd, hgrow, bkvMemTruncate, Env.paged]
      · have hno : bkvHdlMem ≠ bkvOk := by decide
        simp [Bkv.inRam, hsize, hmax, hfd, hgrow, bkvMemTruncate, Env.paged, hno]
  · rw [if_neg hroom, if_neg hroom]

theorem prepare_both (env : Env) (hfd : h.fd ≠ -1) (n : Nat) :
    ∃ l_ret l_ret' g, bkvPrepare env h n = (l_ret, g) ∧
      bkvPrepare env.paged h.inRam n = (l_ret', g.inRam) ∧ l_ret' ≠ -1 ∧ g.fd = h.fd := by
  have hfd' : (bkvPrepare env h n).2.fd = h.fd := by
    rw [bkvPrepare_grow]
    rfl
  exact ⟨(bkvPrepare env h n).1, (bkvPrepare env.paged h.inRam n).1, (bkvPrepare env h n).2, rfl,
    Prod.ext rfl (prepare_inRam env hfd n), bkvPrepare_ram _ rfl n, hfd'⟩

/-- A result that is the same in RAM when it is a success. -/
def SameInRam (h : Bkv) (r r' : Int × Bkv) : Prop :=
  r.1 = bkvOk → r' = (bkvOk, r.2.inRam) ∧ r.2.fd = h.fd

theorem refused_inRam {p : Prop} [Decidable p] {code : Int} (hcode : code ≠ bkvOk)
    {r r' : Int × Bkv} (hr : SameInRam h r r') :
    SameInRam h (if p then (code, h) else r) (if p then (code, h.inRam) else r') := by
  intro hok
  by_cases hp : p
  · rw [if_pos hp] at hok
    exact absurd hok hcode
  · rw [if_neg hp] at hok
    rw [if_neg hp, if_neg hp]
    exact hr hok

theorem prepared_inRam {l_ret l_ret' : Int} {g : Bkv} (hram : l_ret' ≠ -1) (hg : g.fd = h.fd)
    {r r' : Int × Bkv} (hr : SameInRam g r r') :
    SameInRam h (if l_ret = -1 then (bkvInvState, g) else r)
      (if l_ret' = -1 then (bkvInvState, g.inRam) else r') := by
  intro hok
  by_cases hl : l_ret = -1
  · rw [if_pos hl] at hok
    exact absurd hok (show bkvInvState ≠ bkvOk by decide)
  · rw [if_neg hl] at hok
    rw [if_neg hl, if_neg hram]
    obtain ⟨hsame, hkeep⟩ := hr hok
    exact ⟨hsame, hkeep.trans hg⟩

theorem counted_inRam {r r' : Int × Bkv} (hr : SameInRam h r r') :
    SameInRam h (counted r) (counted r') := by
  intro hok
  have hok' : r.1 = bkvOk := by
    unfold counted at hok
    split at hok <;> exact hok
  obtain ⟨rfl, hfd⟩ := hr hok'
  rw [counted, counted, if_pos hok', if_pos rfl, hok']
  exact ⟨rfl, hfd⟩

theorem ended_inRam {g h₁ h₂ : Bkv} {p : Prop} [Decidable p] (h₁fd : h₁.fd = g.fd)
    (h₂fd : h₂.fd = g.fd) : SameInRam g (if p then (bkvOk, h₁) else (bkvOk, h₂))
      (if p then (bkvOk, h₁.inRam) else (bkvOk, h₂.inRam)) := by
  intro _
  split
  · exact ⟨rfl, h₁fd⟩
  · exact ⟨rfl, h₂fd⟩

section
variable (env) (hfd : h.fd ≠ -1)
include hfd

theorem keyedAdd_inRam (key : UInt16) (n : Nat) (t : HeaderType) (payload : List UInt8) :
    SameInRam h (keyedAdd env h key n t payload) (keyedAdd env.paged h.inRam key n t payload) := by
  obtain ⟨l_ret, l_ret', g, hx, hy, hram, hg⟩ := prepare_both env hfd n
  rw [keyedAdd, keyedAdd, hx, hy]
  exact refused_inRam (by decide) (refused_inRam (by decide)
    (prepared_inRam hram hg fun _ => ⟨rfl, rfl⟩))

theorem bkvKvWcharAdd_inRam (key : UInt16) (s : List UInt32) :
    SameInRam h (bkvKvWcharAdd env h key s) (bkvKvWcharAdd env.paged h.inRam key s) := by
  obtain ⟨l_ret, l_ret', g, hx, hy, hram, hg⟩ :=
    prepare_both env hfd ((hdrSize + stringValueSize + s.length) * 8)
  rw [bkvKvWcharAdd, bkvKvWcharAdd, hx, hy]
  exact refused_inRam (by decide) (refused_inRam (by decide)
    (prepared_inRam hram hg fun _ => ⟨rfl, rfl⟩))

theorem arrayAdd_inRam (t : UInt8) (n : Nat) (hdr_type : HeaderType) (payload : List UInt8) :
    SameInRam h (arrayAdd env h t n hdr_type payload)
      (arrayAdd env.paged h.inRam t n hdr_type payload) := by
  obtain ⟨l_ret, l_ret', g, hx, hy, hram, hg⟩ := prepare_both env hfd n
  rw [arrayAdd, arrayAdd, hx, hy]
  exact refused_inRam (by decide) (prepared_inRam hram hg fun _ => ⟨rfl, rfl⟩)

theorem opening_inRam (k : Kind) (key : UInt16) :
    SameInRam h (exec env h (.opening k key)) (exec env.paged h.inRam (.opening k key)) := by
  cases k with
  | map =>
    obtain ⟨l_ret, l_ret', g, hx, hy, hram, hg⟩ := prepare_both env hfd 32
    rw [exec, exec, bkvKvMapOpen, bkvKvMapOpen, hx, hy]
    exact refused_inRam (by decide) (prepared_inRam hram hg fun _ => ⟨rfl, rfl⟩)
  | array =>
    obtain ⟨l_ret, l_ret', g, hx, hy, hram, hg⟩ := prepare_both env hfd 16
    rw [exec, exec, bkvKvArrayOpen, bkvKvArrayOpen, hx, hy]
    exact refused_inRam (by decide) (prepared_inRam hram hg fun _ => ⟨rfl, rfl⟩)

theorem closing_inRam (k : Kind) :
    SameInRam h (exec env h (.closing k)) (exec env.paged h.inRam (.closing k)) := by
  cases k with
  | map =>
    obtain ⟨l_ret, l_ret', g, hx, hy, hram, hg⟩ := prepare_both env hfd 64
    rw [exec, exec, bkvKvMapClose, bkvKvMapClose, hx, hy]
    exact refused_inRam (by decide) (prepared_inRam hram hg (ended_inRam rfl rfl))
  | array =>
    obtain ⟨l_ret, l_ret', g, hx, hy, hram, hg⟩ := prepare_both env hfd 16
    rw [exec, exec, bkvKvArrayClose, bkvKvArrayClose, hx, hy]
    exact refused_inRam (by decide) (prepared_inRam hram hg (ended_inRam rfl rfl))

/-- A call that succeeds on a file does the same in RAM. -/
theorem exec_inRam (c : Call) : SameInRam h (exec env h c) (exec env.paged h.inRam c) := by
  cases c with
  | opening k key => exact opening_inRam env hfd k key
  | closing k => exact closing_inRam env hfd k
  | add e =>
    cases e with
    | keyed key v =>
      cases v with
      | wchar s => exact bkvKvWcharAdd_inRam env hfd key s
      | _ => exact keyedAdd_inRam env hfd _ _ _ _
    | elem v =>
      cases v with
      | u64 v => exact arrayAdd_inRam env hfd _ _ _ _
      | _ => exact counted_inRam (arrayAdd_inRam env hfd _ _ _ _)

end

theorem runOk_inRam (hfd : h.fd ≠ -1) {cs : List Call} {h' : Bkv} (hr : runOk env h cs = some h') :
    runOk env.paged h.inRam cs = some h'.inRam ∧ h'.fd = h.fd := by
  induction cs generalizing h with
  | nil =>
    cases hr
    exact ⟨rfl, rfl⟩
  | cons c cs ih =>
    rw [runOk] at hr
    split at hr
    · rename_i hok
      obtain ⟨hsame, hkeep⟩ := exec_inRam env hfd c hok
      obtain ⟨hrun, hrest⟩ := ih (hkeep ▸ hfd) hr
      refine ⟨?_, hrest.trans hkeep⟩
      rw [runOk, hsame, if_pos rfl, hrun]
    · cases hr

theorem created_inRam {id : Nat} {p : BkvCreate} {h₀ : Bkv}
    (hp : p.createType = .openFileCreatAndWrite) (hcreate : bkvCreate env id p = (bkvOk, some h₀)) :
    h₀.fd ≠ -1 ∧ Sim h₀.inRam .start := by
  simp only [bkvCreate, openBuffer, hp, bkvOpenFileCreateWrite] at hcreate
  split at hcreate
  · cases hcreate
  · rename_i hopen
    split at hopen
    · cases hopen
    · split at hopen
      · cases hopen
      · cases hopen
        split at hcreate
        · cases hcreate
        · cases hcreate
          exact ⟨by simp, rfl, trivial, ⟨rfl, rfl⟩, rfl⟩

end Wtools
