import Wtools.FailedGrowth

/-!
# Growth of the buffer

What a call of the writer changes of the things that tie a handle to the system: the size of its
buffer, at most once, and nothing else. This holds of every handle, in RAM or on a file, and
whatever the call returns.
-/

namespace Wtools
open ByteMemory

variable {env : Env} {h g : Bkv}

/-- The handle `h` after its buffer has grown at most once. -/
structure Regrown (h h' : Bkv) : Prop where
  fd : h'.fd = h.fd
  endHdl : h'.endHdl = h.endHdl
  chunk : h'.memChunkSize = h.memChunkSize
  size : h'.memSize = h.memSize ∨ h'.memSize = nextSize h

theorem Regrown.refl (h : Bkv) : Regrown h h := ⟨rfl, rfl, rfl, .inl rfl⟩

theorem prepare_regrown (env : Env) (h : Bkv) (n : Nat) :
    ∃ l_ret g, bkvPrepare env h n = (l_ret, g) ∧ Regrown h g := by
  refine ⟨(bkvPrepare env h n).1, (bkvPrepare env h n).2, rfl, ?_⟩
  rw [bkvPrepare_grow]
  refine ⟨rfl, rfl, rfl, ?_⟩
  simp only [grow, bkvPrepare, nextSize]
  repeat' split
  all_goals simp

theorem refused_regrown {p : Prop} [Decidable p] {code : Int} {r : Int × Bkv}
    (hr : Regrown h r.2) : Regrown h (if p then (code, h) else r).2 := by
  split
  · exact .refl h
  · exact hr

theorem either_regrown {p : Prop} [Decidable p] {r r' : Int × Bkv} (hr : Regrown h r.2)
    (hr' : Regrown h r'.2) : Regrown h (if p then r else r').2 := by
  split
  · exact hr
  · exact hr'

theorem counted_regrown {r : Int × Bkv} (hr : Regrown h r.2) : Regrown h (counted r).2 :=
  either_regrown ⟨hr.fd, hr.endHdl, hr.chunk, hr.size⟩ hr

theorem keyedAdd_regrown (env : Env) (h : Bkv) (key : UInt16) (n : Nat) (t : HeaderType)
    (payload : List UInt8) : Regrown h (keyedAdd env h key n t payload).2 := by
  obtain ⟨l_ret, g, hx, hg⟩ := prepare_regrown env h n
  rw [keyedAdd, hx]
  exact refused_regrown (refused_regrown (either_regrown hg ⟨hg.fd, hg.endHdl, hg.chunk, hg.size⟩))

theorem bkvKvWcharAdd_regrown (env : Env) (h : Bkv) (key : UInt16) (s : List UInt32) :
    Regrown h (bkvKvWcharAdd env h key s).2 := by
  obtain ⟨l_ret, g, hx, hg⟩ := prepare_regrown env h ((hdrSize + stringValueSize + s.length) * 8)
  rw [bkvKvWcharAdd, hx]
  exact refused_regrown (refused_regrown (either_regrown hg ⟨hg.fd, hg.endHdl, hg.chunk, hg.size⟩))

theorem arrayAdd_regrown (env : Env) (h : Bkv) (t : UInt8) (n : Nat) (hdr_type : HeaderType)
    (payload : List UInt8) : Regrown h (arrayAdd env h t n hdr_type payload).2 := by
  obtain ⟨l_ret, g, hx, hg⟩ := prepare_regrown env h n
  rw [arrayAdd, hx]
  exact refused_regrown (either_regrown hg ⟨hg.fd, hg.endHdl, hg.chunk, hg.size⟩)

theorem opening_regrown (env : Env) (h : Bkv) (k : Kind) (key : UInt16) :
    Regrown h (exec env h (.opening k key)).2 := by
  cases k with
  | map =>
    obtain ⟨l_ret, g, hx, hg⟩ := prepare_regrown env h 32
    rw [exec, bkvKvMapOpen, hx]
    exact refused_regrown (either_regrown hg ⟨hg.fd, hg.endHdl, hg.chunk, hg.size⟩)
  | array =>
    obtain ⟨l_ret, g, hx, hg⟩ := prepare_regrown env h 16
    rw [exec, bkvKvArrayOpen, hx]
    exact refused_regrown (either_regrown hg ⟨hg.fd, hg.endHdl, hg.chunk, hg.size⟩)

theorem closing_regrown (env : Env) (h : Bkv) (k : Kind) :
    Regrown h (exec env h (.closing k)).2 := by
  cases k with
  | map =>
    obtain ⟨l_ret, g, hx, hg⟩ := prepare_regrown env h 64
    rw [exec, bkvKvMapClose, hx]
    exact refused_regrown (either_regrown hg (either_regrown ⟨hg.fd, hg.endHdl, hg.chunk, hg.size⟩
      ⟨hg.fd, hg.endHdl, hg.chunk, hg.size⟩))
  | array =>
    obtain ⟨l_ret, g, hx, hg⟩ := prepare_regrown env h 16
    rw [exec, bkvKvArrayClose, hx]
    exact refused_regrown (either_regrown hg (either_regrown ⟨hg.fd, hg.endHdl, hg.chunk, hg.size⟩
      ⟨hg.fd, hg.endHdl, hg.chunk, hg.size⟩))

/-- Whatever a call of the writer returns, it grows the buffer at most once. -/
theorem exec_regrown (env : Env) (h : Bkv) (c : Call) : Regrown h (exec env h c).2 := by
  cases c with
  | opening k key => exact opening_regrown env h k key
  | closing k => exact closing_regrown env h k
  | add e =>
    cases e with
    | keyed key v =>
      cases v with
      | wchar s => exact bkvKvWcharAdd_regrown env h key s
      | _ => exact keyedAdd_regrown env h _ _ _ _
    | elem v =>
      cases v with
      | u64 v => exact arrayAdd_regrown env h _ _ _ _
      | _ => exact counted_regrown (arrayAdd_regrown env h _ _ _ _)

end Wtools
