import Wtools.Layout

/-!
# Where the writer stores

Every writer function asks `bkv_prepare` for a number of bits of its own and then stores
and moves past a number of bytes of its own. This module says in which runs all stores
stay inside the buffer.
-/

namespace Wtools
open ByteMemory Forest

/-- The bits given to `bkv_prepare`. -/
def Call.asked : Call → Nat
  | .opening k _ => k.openAsked
  | .closing k => k.closeAsked
  | .add e => e.asked

/-- The stores of one call, and the write offset after it, lie in the buffer. -/
def StoresInside (env : Env) (h : Bkv) (c : Call) : Prop :=
  (∀ i ∈ (exec env h c).2.stores.drop h.stores.length, (i : Int) < (exec env h c).2.memSize) ∧
    ((exec env h c).2.writeOffset : Int) ≤ (exec env h c).2.memSize

/-- The size of the buffer once room for a call was asked for: at most one chunk is added. -/
def sizeFor (h : Bkv) (c : Call) : Int :=
  let chunk := if h.memChunkSize = -1 then bkvDefaultMemChunkSize else h.memChunkSize
  if h.memSize < h.writeOffset + (c.asked / 8 : Nat) then (h.memSize / chunk + 1) * chunk
  else h.memSize

/-- A call that passes its checks finds room for the bytes it moves past. -/
def HasRoom (h : Bkv) (c : Call) : Prop :=
  c.inRange → checkFor h c ≠ -1 → (h.writeOffset + c.width : Nat) ≤ sizeFor h c

/-- A property of every call of a run, in the state before it. -/
def Always (env : Env) (P : Bkv → Call → Prop) : Bkv → List Call → Prop
  | _, [] => True
  | h, c :: cs => P h c ∧ Always env P (exec env h c).2 cs

/-- Where an accepted call stores. -/
def callStores (h : Bkv) : Call → List Nat
  | .opening _ _ => List.range' h.writeOffset 2
  | .closing k => k.closeStores h.writeOffset (h.mapOffset h.deepOffset)
  | .add e => List.range' h.writeOffset e.bytes.length

theorem after_room (env : Env) (h : Bkv) (c : Call) :
    (h.after env c).memSize = (grow env h c.asked).memSize ∧
      (h.after env c).writeOffset = h.writeOffset + c.width ∧
      (h.after env c).stores = h.stores ++ callStores h c ∧
      (h.after env c).maxSize = h.maxSize ∧ (h.after env c).memChunkSize = h.memChunkSize := by
  cases c with
  | opening k key =>
    refine ⟨rfl, ?_, rfl, rfl, rfl⟩
    cases k <;> rfl
  | closing k => exact ⟨rfl, rfl, rfl, rfl, rfl⟩
  | add e =>
    simp only [Bkv.after, Bkv.add, Call.width, Entry.width, ← Nat.add_assoc]
    split <;> exact ⟨rfl, rfl, rfl, rfl, rfl⟩

/-- A handle in RAM whose buffer can grow and holds what was written. -/
structure Roomy (env : Env) (h : Bkv) : Prop where
  ram : h.fd = -1
  realloc : ∀ n, env.realloc n
  unlimited : h.maxSize = -1
  chunk : h.memChunkSize = -1 ∨ 0 < h.memChunkSize
  inside : (h.writeOffset : Int) ≤ h.memSize

theorem grow_memSize {env : Env} {h : Bkv} (hr : Roomy env h) (c : Call) :
    (grow env h c.asked).memSize = sizeFor h c := by
  have hms : 0 ≤ h.memSize := Int.le_trans (Int.natCast_nonneg _) hr.inside
  simp only [grow, bkvPrepare, sizeFor, hr.ram, hr.unlimited, bkvMemTruncate, hr.realloc,
    Int.tdiv_eq_ediv_of_nonneg hms, Int.natCast_add]
  split <;> simp

theorem callStores_lt {h : Bkv} {p p' : Position} {c : Call} (hs : Sim h p) (hm : Move p c p') :
    ∀ i ∈ callStores h c, i < h.writeOffset + c.width := by
  have hclose : ∀ (fr : Frame) (outer : List Frame), Sim h (.inside fr outer) →
      ∀ i ∈ fr.kind.closeStores h.writeOffset (h.mapOffset h.deepOffset),
        i < h.writeOffset + fr.kind.closeWidth := by
    intro fr outer hs i hi
    obtain ⟨-, hd, -⟩ := hs.controls
    obtain ⟨-, -, he⟩ := hs.laid
    rw [frame_pattern_length] at he
    rw [hd] at hi
    cases hk : fr.kind <;> rw [hk] at hi he <;>
      simp only [Kind.closeStores, Kind.closeWidth, Kind.openWidth, List.mem_cons,
        List.not_mem_nil, or_false] at hi he ⊢ <;> omega
  cases hm with
  | root key =>
    intro i hi
    simp only [callStores, List.mem_range'_1, Call.width, Kind.openWidth] at hi ⊢
    omega
  | @opening fr outer k key hk =>
    intro i hi
    have hw : 2 ≤ k.openWidth := by cases k <;> decide
    simp only [callStores, List.mem_range'_1, Call.width] at hi ⊢
    omega
  | closeRoot fr => exact hclose fr [] hs
  | closing fr o outer => exact hclose fr (o :: outer) hs
  | @add fr outer e he =>
    intro i hi
    simp only [callStores, List.mem_range'_1, Call.width, Entry.width] at hi ⊢
    omega

/-- One call stores inside the buffer if and only if it finds room. -/
theorem storesInside_step {env : Env} {h : Bkv} {p : Position} (hs : Sim h p) (hr : Roomy env h)
    (c : Call) : StoresInside env h c ↔ HasRoom h c := by
  rcases exec_refines env hs.ram hs.controls c with ⟨hn, -, hh⟩ | ⟨p', hn, hx⟩
  · have hroom : HasRoom h c := by
      intro hc hk
      obtain ⟨p', hp'⟩ := Option.isSome_iff_exists.mp ((check_iff hs.controls c).mp hk)
      rw [next?_eq_some.mpr ⟨hc, hp'⟩] at hn
      cases hn
    have hin : StoresInside env h c := by
      rw [StoresInside, hh]
      exact ⟨by simp, hr.inside⟩
    exact iff_of_true hin hroom
  · obtain ⟨hc, ha⟩ := next?_eq_some.mp hn
    have hk : checkFor h c ≠ -1 := (check_iff hs.controls c).mpr (by rw [ha, Option.isSome_some])
    obtain ⟨hms, hwo, hst, -, -⟩ := after_room env h c
    have hlt := callStores_lt hs (advance_eq_some.mp ha)
    rw [StoresInside, hx, hms, hwo, hst, grow_memSize hr, List.drop_left, HasRoom]
    constructor
    · rintro ⟨-, hw⟩ - -
      exact hw
    · intro hroom
      refine ⟨fun i hi => ?_, hroom hc hk⟩
      have hi' := hlt i hi
      have hw := hroom hc hk
      omega

theorem Roomy.exec {env : Env} {h : Bkv} {p : Position} (hs : Sim h p) (hr : Roomy env h) {c : Call}
    (hc : HasRoom h c) : Roomy env (exec env h c).2 := by
  have hin := (storesInside_step hs hr c).mpr hc
  rcases exec_refines env hs.ram hs.controls c with ⟨-, -, hh⟩ | ⟨p', hn, hx⟩
  · rw [hh]
    exact hr
  · obtain ⟨-, -, -, hmax, hchunk⟩ := after_room env h c
    have hin' := hin.2
    rw [hx] at hin' ⊢
    exact ⟨(after_fd env h c).trans hr.ram, hr.realloc, hmax.trans hr.unlimited,
      hchunk ▸ hr.chunk, hin'⟩

theorem storesInside_run {env : Env} {h : Bkv} {p : Position} (hs : Sim h p) (hr : Roomy env h)
    (cs : List Call) : Always env (StoresInside env) h cs ↔ Always env HasRoom h cs := by
  induction cs generalizing h p with
  | nil => exact Iff.rfl
  | cons c cs ih =>
    rw [Always, Always, storesInside_step hs hr c]
    exact and_congr_right fun hc => ih (hs.exec env c) (hr.exec hs hc)

/-- A handle in RAM stores inside its buffer through a whole run if and only if each of the
calls finds room. -/
theorem stores_inside_iff (env : Env) (h₀ : Bkv) (hf : FreshRam env h₀) (hre : ∀ n, env.realloc n)
    (hchunk : h₀.memChunkSize = -1 ∨ 0 < h₀.memChunkSize) (cs : List Call) :
    Always env (StoresInside env) h₀ cs ↔ Always env HasRoom h₀ cs := by
  have hs := freshRam_sim hf
  obtain ⟨id, chunk, rfl⟩ := hf.eq
  exact storesInside_run hs ⟨hs.ram, hre, rfl, hchunk, (by decide : (0 : Int) ≤ 128)⟩ cs

/-- The second string does not fit into the first chunk. -/
def growingCalls : List Call :=
  [.opening .map 1, .add (.keyed 2 (.str (List.replicate 100 97))),
    .add (.keyed 3 (.str (List.replicate 100 97))), .closing .map]

theorem stores_inside_iff_growing : (run calmEnv ramHandle growingCalls).memSize = 256 ∧
    Always calmEnv (StoresInside calmEnv) ramHandle growingCalls :=
  ⟨by decide +kernel,
    (stores_inside_iff calmEnv ramHandle ramHandle_fresh (fun _ => rfl) (.inl rfl) _).mpr
      ⟨fun _ _ => by decide, fun _ _ => by decide, fun _ _ => by decide, fun _ _ => by decide,
        trivial⟩⟩

/-- A 16-bit add at offset 126 asks for two bytes and stores four. -/
theorem u16_add_overruns : FreshRam calmEnv ramHandle ∧ ramHandle.memChunkSize = -1 ∧
    ¬ Always calmEnv (StoresInside calmEnv) ramHandle [.opening .map 1,
      .add (.keyed 2 (.str (List.replicate 118 97))), .add (.keyed 3 (.u16 5))] :=
  ⟨ramHandle_fresh, rfl, fun h => absurd h.2.2.1.2 (by decide +kernel)⟩

end Wtools
