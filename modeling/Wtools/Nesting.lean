import Wtools.Bounds
import Wtools.Decode
import Wtools.JsonParse
import Wtools.Records

/-!
# The nesting stack

`deep_value`, `map_offset` and `array_nb_elems` have 32 entries, and no writer function compares
`deep_offset` with that. The accesses stay inside the arrays as long as no opening is accepted
while 32 containers are open. The JSON reader opens one container for each of its text.
-/

namespace Wtools
open ByteMemory Forest

/-- The entries of `deep_value`, `map_offset` and `array_nb_elems` that an accepted call reads or
writes. -/
def stackAccesses (h : Bkv) : Call → List Int
  | .opening _ _ => (if h.deepOffset = -1 then [] else [h.deepOffset]) ++ [h.deepOffset + 1]
  | .closing _ => h.deepOffset :: if h.deepOffset - 1 = -1 then [] else [h.deepOffset - 1]
  | .add _ => [h.deepOffset]

def Call.isOpening : Call → Bool
  | .opening _ _ => true
  | _ => false

/-- One call leaves `deep_offset` and its accesses inside the 32 entries, and an opening that has
no entry left is refused. -/
structure NestingSafe (env : Env) (h : Bkv) (c : Call) : Prop where
  lower : -1 ≤ (exec env h c).2.deepOffset
  upper : (exec env h c).2.deepOffset ≤ 31
  inside : (exec env h c).1 = bkvOk → ∀ i ∈ stackAccesses h c, 0 ≤ i ∧ i < 32
  refused : c.isOpening → h.deepOffset = 31 → (exec env h c).1 ≠ bkvOk ∧ (exec env h c).2 = h

/-- An opening that passes its check finds a free entry. -/
def HasLevel (h : Bkv) (c : Call) : Prop := c.isOpening → checkFor h c ≠ -1 → h.deepOffset < 31

variable {env : Env} {h : Bkv} {p p' : Position} {c : Call}

theorem Sim.deepOffset (hs : Sim h p) : h.deepOffset + 1 = p.frames.length := by
  have hc := hs.controls
  cases p with
  | start => simp [hc.2, Position.frames]
  | inside fr outer => simp [hc.2.1, Position.frames]
  | complete key body => simp [hc.2, Position.frames]

/-- An accepted call works on a container that is open, or on the one it opens. -/
theorem stackAccesses_range (hs : Sim h p) (hm : Move p c p') :
    ∀ i ∈ stackAccesses h c, 0 ≤ i ∧ i < max (h.deepOffset + 1) (p'.frames.length : Int) := by
  have hd := hs.deepOffset
  intro i hi
  cases hm with
  | root key =>
    simp only [Position.frames, List.length_nil, List.length_singleton] at hd ⊢
    simp [stackAccesses, show h.deepOffset = -1 by omega] at hi
    omega
  | opening key hk =>
    simp only [Position.frames, List.length_cons] at hd ⊢
    rw [stackAccesses, if_neg (by omega)] at hi
    simp only [List.cons_append, List.nil_append, List.mem_cons, List.not_mem_nil, or_false] at hi
    omega
  | closeRoot fr =>
    simp only [Position.frames, List.length_nil, List.length_singleton] at hd ⊢
    rw [stackAccesses, if_pos (by omega), List.mem_singleton] at hi
    omega
  | closing fr o outer =>
    simp only [Position.frames, Frame.put, List.length_cons] at hd ⊢
    rw [stackAccesses, if_neg (by omega)] at hi
    simp only [List.mem_cons, List.not_mem_nil, or_false] at hi
    omega
  | add he =>
    simp only [Position.frames, Frame.put, List.length_cons] at hd ⊢
    rw [stackAccesses, List.mem_singleton] at hi
    omega

theorem frames_move (hm : Move p c p') :
    (p'.frames.length : Int) ≤ p.frames.length + (if c.isOpening then 1 else 0) := by
  cases hm <;>
    simp only [Position.frames, Call.isOpening, List.length_nil, List.length_cons,
      Bool.false_eq_true, if_true, if_false] <;>
    omega

theorem frames_opening {k : Kind} {key : UInt16} (hm : Move p (.opening k key) p') :
    p'.frames.length = p.frames.length + 1 := by
  cases hm <;> rfl

/-- A refused call leaves the handle alone, and is no opening that passes its check. -/
theorem refused_safe (hs : Sim h p) (hdeep : h.deepOffset ≤ 31) (hn : p.next? c = none)
    (hr : (exec env h c).1 ≠ bkvOk) (hh : (exec env h c).2 = h) :
    NestingSafe env h c ∧ HasLevel h c := by
  have hd := hs.deepOffset
  constructor
  · constructor
    · rw [hh]
      omega
    · rw [hh]
      exact hdeep
    · intro hok
      exact absurd hok hr
    · intro _ _
      exact ⟨hr, hh⟩
  · intro ho hk
    have hc : c.inRange := by
      cases c with
      | opening k key => rfl
      | closing k => cases ho
      | add e => cases ho
    obtain ⟨p', hp'⟩ := Option.isSome_iff_exists.mp ((check_iff hs.controls c).mp hk)
    rw [next?_eq_some.mpr ⟨hc, hp'⟩] at hn
    cases hn

/-- An accepted call that finds a free entry is safe. -/
theorem accepted_safe (hs : Sim h p) (hdeep : h.deepOffset ≤ 31) (ha : advance p c = some p')
    (hx : exec env h c = (bkvOk, h.after env c)) (hfree : c.isOpening → h.deepOffset < 31) :
    NestingSafe env h c := by
  have hd := hs.deepOffset
  have hm := advance_eq_some.mp ha
  have hd' := (hs.after env ha).deepOffset
  have hmove := frames_move hm
  have hup : (h.after env c).deepOffset ≤ 31 := by
    cases ho : c.isOpening with
    | true =>
      have hlt := hfree ho
      rw [ho, if_pos rfl] at hmove
      omega
    | false =>
      rw [ho, if_neg (by decide)] at hmove
      omega
  constructor
  · rw [hx]
    dsimp only
    omega
  · rw [hx]
    exact hup
  · intro _ i hi
    have hrange := stackAccesses_range hs hm i hi
    omega
  · intro ho hfull
    have hlt := hfree ho
    omega

/-- One call of a handle with at most 32 open containers is safe if and only if it finds a free
entry. -/
theorem nestingSafe_step (env : Env) (hs : Sim h p) (hdeep : h.deepOffset ≤ 31) (c : Call) :
    NestingSafe env h c ↔ HasLevel h c := by
  rcases exec_refines env hs.ram hs.controls c with ⟨hn, hr, hh⟩ | ⟨p', hn, hx⟩
  · obtain ⟨hsafe, hlevel⟩ := refused_safe hs hdeep hn hr hh
    exact iff_of_true hsafe hlevel
  · obtain ⟨hc, ha⟩ := next?_eq_some.mp hn
    constructor
    · intro hsafe ho _
      have hd := hs.deepOffset
      have hd' := (hs.after env ha).deepOffset
      have hup := hsafe.upper
      rw [hx] at hup
      dsimp only at hup
      cases c with
      | opening k key =>
        have hframes := frames_opening (advance_eq_some.mp ha)
        omega
      | closing k => cases ho
      | add e => cases ho
    · intro hlevel
      have hk : checkFor h c ≠ -1 :=
        (check_iff hs.controls c).mpr (by rw [ha, Option.isSome_some])
      exact accepted_safe hs hdeep ha hx fun ho => hlevel ho hk

theorem nestingSafe_run (hs : Sim h p) (hdeep : h.deepOffset ≤ 31) (cs : List Call) :
    Always env (NestingSafe env) h cs ↔ Always env HasLevel h cs := by
  induction cs generalizing h p with
  | nil => exact Iff.rfl
  | cons c cs ih =>
    rw [Always, Always, nestingSafe_step env hs hdeep c]
    apply and_congr_right
    intro hc
    exact ih (hs.exec env c) ((nestingSafe_step env hs hdeep c).mpr hc).upper

/-- No more than 32 containers are open at a time. -/
def InLevels (cs : List Call) : Prop := ∀ ds ∈ cs.inits, steps ds ≤ 32

instance (cs : List Call) : Decidable (InLevels cs) :=
  inferInstanceAs (Decidable (∀ ds ∈ cs.inits, steps ds ≤ 32))

theorem frames_step (hm : Move p c p') : (p'.frames.length : Int) = p.frames.length + c.step := by
  cases hm with
  | root key => rfl
  | opening key hk => simp [Position.frames, Call.step]
  | closeRoot fr => simp [Position.frames, Call.step]
  | closing fr o outer =>
    simp only [Position.frames, Call.step, List.length_cons]
    omega
  | add he => simp [Position.frames, Call.step, Frame.put]

theorem nestingSafe_below {h' : Bkv} {cs : List Call} (hs : Sim h p)
    (hr : runOk env h cs = some h') (hl : ∀ ds, ds <+: cs → p.frames.length + steps ds ≤ 32) :
    Always env (NestingSafe env) h cs := by
  induction cs generalizing h p with
  | nil => trivial
  | cons c cs ih =>
    obtain ⟨p', hn, hs', hr'⟩ := hs.runOk_cons hr
    obtain ⟨-, ha⟩ := next?_eq_some.mp hn
    have hstep := frames_step (advance_eq_some.mp ha)
    have hhere := hl [] List.nil_prefix
    have hnext := hl [c] ⟨cs, rfl⟩
    rw [steps_nil] at hhere
    rw [steps_cons, steps_nil] at hnext
    have hdeep := hs.deepOffset
    have hx : exec env h c = (bkvOk, h.after env c) := by
      rcases exec_refines env hs.ram hs.controls c with ⟨hno, -, -⟩ | ⟨q, -, hx⟩
      · rw [hn] at hno
        cases hno
      · exact hx
    refine ⟨accepted_safe hs (by omega) ha hx fun ho => ?_, ?_⟩
    · cases c with
      | opening k key =>
        rw [Call.step] at hnext
        omega
      | closing k => cases ho
      | add e => cases ho
    · rw [hx]
      refine ih hs' hr' fun ds hds => ?_
      have hmore := hl (c :: ds) (List.cons_prefix_cons.mpr ⟨rfl, hds⟩)
      rw [steps_cons] at hmore
      omega

/-- The calls of a document with at most 32 containers open at a time stay inside the stacks. -/
theorem nestingSafe_levels {h₀ h : Bkv} {cs : List Call} (hf : FreshRam env h₀)
    (hr : runOk env h₀ cs = some h) (hl : InLevels cs) : Always env (NestingSafe env) h₀ cs := by
  refine nestingSafe_below (freshRam_sim hf) hr fun ds hds => ?_
  have := hl ds ((List.mem_inits _ _).mpr hds)
  simpa [Position.frames] using this

theorem Always.snoc {P : Bkv → Call → Prop} {cs : List Call} (h₀ : Always env P h (cs ++ [c])) :
    P (run env h cs) c := by
  induction cs generalizing h with
  | nil => exact h₀.1
  | cons d cs ih => exact ih h₀.2

section Reader
variable {float : List UInt8 → UInt32}

/-- All that a callback of the JSON reader does to the data handle is a call of the writer. -/
theorem callback_calls {e : JsonEvent} {r : Int} {c c' : FromJsonCtx}
    (h : jsonCallback env float e c = .ok (r, c')) :
    c'.dataHandle = c.dataHandle ∨
      ∃ call, c'.dataHandle = (exec env c.dataHandle call).2 := by
  have hnone : ∀ {x : Int × FromJsonCtx}, (Except.ok x : Except KeyFault _) = .ok (r, c') →
      x.2.dataHandle = c.dataHandle → c'.dataHandle = c.dataHandle ∨
        ∃ call, c'.dataHandle = (exec env c.dataHandle call).2 := by
    intro x hx hd
    cases hx
    exact .inl hd
  have hone : ∀ {x : Int × FromJsonCtx}, (Except.ok x : Except KeyFault _) = .ok (r, c') →
      ∀ call, x.2.dataHandle = (exec env c.dataHandle call).2 →
      c'.dataHandle = c.dataHandle ∨
        ∃ call, c'.dataHandle = (exec env c.dataHandle call).2 := by
    intro x hx call hd
    cases hx
    exact .inr ⟨call, hd⟩
  cases e with
  | null => exact hnone h rfl
  | boolean v =>
    rw [jsonCallback, bkvJsonGetBoolean] at h
    split at h
    · exact hone h (.add (.elem (.boolean v))) rfl
    · exact hone h (.add (.keyed c.index (.boolean v))) rfl
  | number text =>
    rw [jsonCallback, bkvJsonGetNumber] at h
    split at h
    · split at h
      · exact hone h (.add (.elem (.u16 _))) rfl
      · exact hone h (.add (.elem (.float _))) rfl
      · exact hnone h rfl
    · split at h
      · exact hone h (.add (.keyed c.index (.u16 _))) rfl
      · exact hone h (.add (.keyed c.index (.u32 _))) rfl
      · exact hone h (.add (.keyed c.index (.float _))) rfl
      · exact hnone h rfl
  | string s =>
    rw [jsonCallback, bkvJsonGetString] at h
    split at h
    · exact hone h (.add (.elem (.str s))) rfl
    · exact hone h (.add (.keyed c.index (.str s))) rfl
  | startMap =>
    apply hone h (.opening .map (if 0 < c.deep then c.index else bkvNoKey))
    rw [bkvJsonStartMap, write_eq]
    by_cases hl : (exec env c.dataHandle
        (.opening .map (if 0 < c.deep then c.index else bkvNoKey))).1 = -1 <;>
      simp [hl]
  | startArray =>
    apply hone h (.opening .array (if 0 < c.deep then c.index else bkvNoKey))
    rw [bkvJsonStartArray, write_eq]
    by_cases hl : (exec env c.dataHandle
        (.opening .array (if 0 < c.deep then c.index else bkvNoKey))).1 = -1 <;>
      simp [hl]
  | endMap =>
    by_cases hd : 1 < c.deep ∨ c.dicoHandle = none
    · apply hone h (.closing .map)
      by_cases hl : (exec env c.dataHandle (.closing .map)).1 = -1 <;>
        simp [bkvJsonEndMap, hd, hl, write_eq]
    · exact hnone h (by simp [bkvJsonEndMap, hd])
  | endArray =>
    by_cases hd : 1 < c.deep
    · apply hone h (.closing .array)
      by_cases hl : (exec env c.dataHandle (.closing .array)).1 = -1 <;>
        simp [bkvJsonEndArray, hd, hl, write_eq]
    · exact hnone h (by simp [bkvJsonEndArray, hd])
  | mapKey w =>
    obtain ⟨⟨l_ret, fin, d⟩, -, h⟩ := bind_ok h
    dsimp only at h
    split at h <;> exact hnone h rfl

theorem callback_runs {e : JsonEvent} {r : Int} {c c' : FromJsonCtx}
    (h : jsonCallback env float e c = .ok (r, c')) :
    ∃ cs, c'.dataHandle = run env c.dataHandle cs := by
  rcases callback_calls h with hkept | ⟨call, hcall⟩
  · exact ⟨[], hkept⟩
  · exact ⟨[call], hcall⟩

/-- Whatever the text, the data handle of the JSON reader is one that writer calls led to. -/
theorem yajlParse_runs {es : List JsonEvent} {ok : Bool} {c c' : FromJsonCtx}
    (h : yajlParse env float es c = .ok (ok, c')) :
    ∃ cs, c'.dataHandle = run env c.dataHandle cs := by
  induction es generalizing c with
  | nil =>
    cases h
    exact ⟨[], rfl⟩
  | cons e es ih =>
    obtain ⟨⟨r, c₁⟩, hcall, h⟩ := bind_ok h
    obtain ⟨cs, hcs⟩ := callback_runs hcall
    dsimp only at h
    split at h
    · cases h
      exact ⟨cs, hcs⟩
    · obtain ⟨ds, hds⟩ := ih h
      refine ⟨cs ++ ds, ?_⟩
      rw [hds, hcs, run, run, run, List.foldl_append]

end Reader

/-- The nesting stack stays inside its arrays through a whole run if and only if no opening is
accepted while 32 containers are open; and the JSON reader makes such a run of any text. -/
theorem nesting_safe_iff (env : Env) (h₀ : Bkv) (hf : FreshRam env h₀) :
    (∀ cs, Always env (NestingSafe env) h₀ cs ↔ Always env HasLevel h₀ cs) ∧
    ∀ float text ok c c', c.dataHandle = h₀ → yajlParse env float text c = .ok (ok, c') →
      ∃ cs, c'.dataHandle = run env h₀ cs := by
  have hs := freshRam_sim hf
  have hdeep := hs.controls.2
  refine ⟨fun cs => nestingSafe_run hs (by omega) cs, ?_⟩
  intro float text ok c c' hc hp
  rw [← hc]
  exact yajlParse_runs hp

theorem nesting_safe_iff_levels :
    Always calmEnv (NestingSafe calmEnv) ramHandle [.opening .map 1, .opening .array 2,
      .opening .map 3, .opening .map 4, .closing .map, .closing .map, .closing .array,
      .closing .map] :=
  ((nesting_safe_iff calmEnv ramHandle ramHandle_fresh).1 _).mpr
    ⟨fun _ _ => by decide, fun _ _ => by decide, fun _ _ => by decide, fun _ _ => by decide,
      fun _ _ => by decide, fun _ _ => by decide, fun _ _ => by decide, fun _ _ => by decide,
      trivial⟩

/-- The openings of a text of `n` nested objects. -/
def nestedText : Nat → List JsonEvent
  | 0 => []
  | n + 1 => .startMap :: .mapKey [0x61] :: nestedText n

/-- `deep_offset` of the data handle after a text. -/
def parsedDepth (text : List JsonEvent) : Except KeyFault Int := do
  let (_, dico) ← bkvDicoCreate calmEnv 1 ⟨fun _ => true, 0⟩ .direct
  let (_, c) ← bkvFromJsonYajlParse calmEnv (fun _ => 0) text ⟨ramHandle, dico, 0, false, 0, 0⟩
  return c.dataHandle.deepOffset

/-- The 33rd map is opened like the others, by the writer and by the JSON reader. -/
theorem nesting_overflows : FreshRam calmEnv ramHandle ∧
    ¬Always calmEnv (NestingSafe calmEnv) ramHandle (List.replicate 32 (.opening .map 1) ++
      [.opening .map 1]) ∧
    parsedDepth (nestedText 33) = .ok 32 := by
  refine ⟨ramHandle_fresh, ?_, by decide +kernel⟩
  intro h
  exact absurd h.snoc.upper (by decide +kernel)

end Wtools
