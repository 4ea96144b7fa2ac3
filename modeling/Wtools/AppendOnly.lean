import Wtools.Records

/-!
# The writer appends

A call stores at the write offset and behind it. A close also stores into the header that its slot
of the stack points to, and in every state that accepted calls reach this is the header of the
innermost container. So a container does not change any more once it is closed.
-/

namespace Wtools
open ByteMemory Forest

/-- A place in the header of the innermost container that the calls leave open, behind the type and
the key: the length of a map, the length and the count of an array. -/
def InLengthField (cs : List Call) (k : Kind) (i : Nat) : Prop :=
  ∃ pre key body, cs = pre ++ .opening k key :: calls body ∧
    widths pre + hdrSize ≤ i ∧ i < widths pre + k.openWidth

variable {env : Env} {h₀ h : Bkv} {cs : List Call}

/-- The calls before the innermost container was opened, and where its header lies. -/
theorem innermost_header {fr : Frame} {outer : List Frame} (hs₀ : Sim h₀ .start)
    (hr : runOk env h₀ cs = some h) (hp : track .start cs = some (.inside fr outer)) :
    ∃ pre, cs = pre ++ fr.calls ∧ h.mapOffset h.deepOffset = widths pre := by
  obtain ⟨-, hcalls⟩ := track_spells hp
  have hsplit : cs = outer.reverse.flatMap Frame.calls ++ fr.calls := by
    rw [← hcalls, Position.calls, List.reverse_cons, List.flatMap_append, List.flatMap_singleton]
  refine ⟨_, hsplit, ?_⟩
  rw [hsplit, runOk_append, Option.bind_eq_some_iff] at hr
  obtain ⟨h₁, hr₁, hr⟩ := hr
  obtain ⟨p₁, -, hs₁, -⟩ := hs₀.runOk env hr₁
  rw [opened_header hs₁ hr, (fresh_moves hs₀ hr₁).1]

theorem close_keeps (env : Env) (h : Bkv) (k : Kind) {i : Nat} (hi : i < h.writeOffset) :
    (h.after env (.closing k)).ptr i = h.ptr i ∨
      h.mapOffset h.deepOffset + hdrSize ≤ i ∧ i < h.mapOffset h.deepOffset + k.openWidth := by
  by_cases hlo : i < h.mapOffset h.deepOffset + hdrSize
  · refine .inl (closeMem_below i (Nat.zero_le i) ?_).symm
    rw [hdrSize] at hlo
    omega
  by_cases hhi : h.mapOffset h.deepOffset + k.openWidth ≤ i
  · exact .inl (closeMem_body i hhi hi).symm
  · exact .inr ⟨Nat.le_of_not_lt hlo, Nat.lt_of_not_le hhi⟩

/-- One call moves the write offset forward and keeps what lies before it, but for the length field
of the container that it closes. -/
theorem exec_appends (hs₀ : Sim h₀ .start) (hr : runOk env h₀ cs = some h) (c : Call) :
    h.writeOffset ≤ (exec env h c).2.writeOffset ∧
      ∀ i < h.writeOffset, (exec env h c).2.ptr i = h.ptr i ∨
        ∃ k, c = .closing k ∧ (exec env h c).1 = bkvOk ∧ InLengthField cs k i := by
  obtain ⟨p, hp, hs, -⟩ := hs₀.runOk env hr
  rcases exec_refines env hs.ram hs.controls c with ⟨-, -, hh⟩ | ⟨p', hn, hx⟩
  · rw [hh]
    exact ⟨Nat.le_refl _, fun i _ => .inl rfl⟩
  · have hm := advance_eq_some.mp (next?_eq_some.mp hn).2
    rw [hx, (after_room env h c).2.1]
    refine ⟨Nat.le_add_right _ _, ?_⟩
    intro i hi
    by_cases hc : ∃ k, c = .closing k
    · obtain ⟨k, rfl⟩ := hc
      obtain ⟨fr, outer, rfl, rfl⟩ : ∃ fr outer, p = .inside fr outer ∧ fr.kind = k := by
        cases hm with
        | closeRoot fr => exact ⟨fr, [], rfl, rfl⟩
        | closing fr o outer => exact ⟨fr, o :: outer, rfl, rfl⟩
      obtain ⟨pre, hsplit, ho⟩ := innermost_header hs₀ hr hp
      have hkeeps := close_keeps env h fr.kind hi
      rw [ho] at hkeeps
      rcases hkeeps with hkeep | hfield
      · exact .inl hkeep
      · exact .inr ⟨fr.kind, rfl, rfl, pre, fr.key, fr.done, hsplit, hfield⟩
    · refine .inl (after_frame env (Nat.le_refl _) ?_ i (Nat.zero_le i) hi).symm
      intro k hk
      exact absurd ⟨k, hk⟩ hc

/-- The writer only appends: in a state that accepted calls reach, no call moves the write offset
back or changes a byte before it, except for the length field of the header of the innermost
container when it is closed; and no calls change a container that is closed already. -/
theorem append_only (env : Env) (h₀ h : Bkv) (cs : List Call) (hf : FreshRam env h₀)
    (hr : runOk env h₀ cs = some h) :
    (∀ c, h.writeOffset ≤ (exec env h c).2.writeOffset ∧
      ∀ i < h.writeOffset, (exec env h c).2.ptr i = h.ptr i ∨
        ∃ k, c = .closing k ∧ (exec env h c).1 = bkvOk ∧ InLengthField cs k i) ∧
    ∀ pre l body post ds, cs = pre ++ (calls (.node l body .nil) ++ post) →
      AgreeOn h.ptr (run env h ds).ptr (widths pre) (widths pre + size (.node l body .nil)) := by
  have hs₀ := freshRam_sim hf
  refine ⟨exec_appends hs₀ hr, ?_⟩
  intro pre l body post ds hcs
  rw [hcs, runOk_append, Option.bind_eq_some_iff] at hr
  obtain ⟨h₁, hr₁, hr⟩ := hr
  rw [runOk_append, Option.bind_eq_some_iff] at hr
  obtain ⟨h₂, hr₂, hr⟩ := hr
  obtain ⟨p₁, -, hs₁, -⟩ := hs₀.runOk env hr₁
  obtain ⟨p₂, hs₂, hapart⟩ := closed_apart hs₁ hr₂
  have hw₁ := (fresh_moves hs₀ hr₁).1
  have hw₂ := (runOk_moves hs₁ hr₂).1
  rw [widths_calls, hw₁] at hw₂
  have hrun : run env h ds = run env h₂ (post ++ ds) := by
    rw [← runOk_run hr, run, run, run, List.foldl_append]
  rw [← hw₂, ← hw₁]
  -- the bytes are those right after the close, now and after any further calls
  have hnow := run_frame env post hs₂ (Nat.le_refl _) hapart
  have hlater := run_frame env (post ++ ds) hs₂ (Nat.le_refl _) hapart
  rw [runOk_run hr] at hnow
  rw [← hrun] at hlater
  intro i hlo hhi
  rw [← hnow i hlo hhi, hlater i hlo hhi]

/-- The close of the map changes bytes 2 and 3 of its header, those of the array in it are kept. -/
theorem append_only_array : ∃ h, runOk calmEnv ramHandle [.opening .map 1, .opening .array 2,
      .closing .array, .add (.keyed 3 (.u16 5))] = some h ∧
    AgreeOn h.ptr (run calmEnv h [.closing .map]).ptr 4 (4 + size (.node (.array, 2) .nil .nil)) :=
  ⟨_, rfl, (append_only calmEnv ramHandle _ [.opening .map 1, .opening .array 2, .closing .array,
    .add (.keyed 3 (.u16 5))] ramHandle_fresh rfl).2 [.opening .map 1] (.array, 2) .nil
    [.add (.keyed 3 (.u16 5))] [.closing .map] rfl⟩

end Wtools
