import Wtools.Effects

/-!
# The writer recognizes documents

`Controls` relates the state, the depth and the stack of open containers of a handle to
a position. It holds of a fresh handle and is kept by every call, accepted or not, so
the calls a handle accepts are those of the document grammar.
-/

namespace Wtools
open ByteMemory

/-- The check a writer function makes before it touches the handle. -/
def checkFor (h : Bkv) : Call → Int
  | .opening k _ => bkvCheckState h.state (openValue h) k.openAction
  | .closing k => bkvCheckState h.state (h.deepValue h.deepOffset) k.closeAction
  | .add e => bkvCheckState h.state (h.deepValue h.deepOffset) e.action

/-- The handle after an accepted call. -/
def Bkv.after (env : Env) (h : Bkv) : Call → Bkv
  | .opening k key => h.openIn env k key
  | .closing k => h.closeIn env k
  | .add e => h.add env e

theorem exec_eq (env : Env) {h : Bkv} (hfd : h.fd = -1) (c : Call) : exec env h c =
    if c.inRange = false then (bkvKeyOutOfRange, h)
    else if checkFor h c = -1 then (bkvHdlInv, h)
    else (bkvOk, h.after env c) := by
  cases c with
  | opening k key => exact exec_opening env hfd k key
  | closing k => exact exec_closing env hfd k
  | add e => exact execAdd_eq env hfd e

/-- The stack of open containers, as `deepValue` keeps it. -/
def Stacked (deepValue : Cells UInt8) : List Frame → Prop
  | [] => True
  | fr :: outer => deepValue outer.length = fr.kind.char ∧ Stacked deepValue outer

def Controls (h : Bkv) : Position → Prop
  | .start => h.state = .init ∧ h.deepOffset = -1
  | .inside fr outer =>
    h.state = fr.kind.state ∧ h.deepOffset = outer.length ∧ Stacked h.deepValue (fr :: outer)
  | .complete _ _ => h.state = .term ∧ h.deepOffset = -1

theorem Stacked.congr {d d' : Cells UInt8} {frs : List Frame} (h : Stacked d frs)
    (hd : ∀ j : Nat, j < frs.length → d' j = d j) : Stacked d' frs := by
  induction frs with
  | nil => trivial
  | cons fr outer ih =>
    refine ⟨(hd _ (by simp)).trans h.1, ih h.2 fun j hj => hd j ?_⟩
    exact Nat.lt_succ_of_lt hj

theorem Stacked.set {d : Cells UInt8} {frs : List Frame} (h : Stacked d frs) {n : Int}
    (hn : frs.length ≤ n) (v : UInt8) : Stacked (d.set n v) frs :=
  h.congr fun j hj => Cells.set_of_ne _ _ (by omega)

/-- A call passes its check exactly when the document can grow by it. -/
theorem check_iff {h : Bkv} {p : Position} (hc : Controls h p) (c : Call) :
    checkFor h c ≠ -1 ↔ (advance p c).isSome := by
  cases p with
  | start =>
    obtain ⟨hs, hd⟩ := hc
    rcases c with ⟨_ | _, key⟩ | ⟨_ | _⟩ | e <;>
      simp [checkFor, hs, bkvCheckState, Kind.openAction, Kind.closeAction, advance]
    cases e <;> simp [Entry.action]
  | complete key body =>
    obtain ⟨hs, hd⟩ := hc
    cases c <;> simp [checkFor, hs, bkvCheckState, advance]
  | inside fr outer =>
    obtain ⟨hs, hd, hv, -⟩ := hc
    have ht : h.deepValue h.deepOffset = fr.kind.char := by rw [hd]; exact hv
    have ho : openValue h = fr.kind.char := by
      rw [openValue, if_neg (by omega), ht]
    rcases fr with ⟨_ | _, key, done⟩ <;> rcases c with ⟨_ | _, key'⟩ | ⟨_ | _⟩ | _ | _ <;>
      cases outer <;>
      simp [checkFor, hs, ht, ho, bkvCheckState, Kind.openAction, Kind.closeAction, Kind.char,
        Kind.state, Kind.holds, Entry.action, Entry.kind, advance, mapKey, arrayKey]

theorem after_fd (env : Env) (h : Bkv) (c : Call) : (h.after env c).fd = h.fd := by
  cases c with
  | opening k key => rfl
  | closing k => rfl
  | add e =>
    simp only [Bkv.after, Bkv.add]
    split <;> rfl

theorem add_controls (env : Env) (h : Bkv) (e : Entry) :
    (h.add env e).state = h.state ∧ (h.add env e).deepOffset = h.deepOffset ∧
      (h.add env e).deepValue = h.deepValue := by
  simp only [Bkv.add]
  split <;> exact ⟨rfl, rfl, rfl⟩

theorem stateOf_char {h : Bkv} {k : Kind} (hk : h.deepValue h.deepOffset = k.char) :
    stateOf h = k.state := by
  rw [stateOf, hk]
  cases k <;> rfl

theorem after_controls (env : Env) {h : Bkv} {p p' : Position} {c : Call} (hl : p.Legal)
    (hc : Controls h p) (hm : Move p c p') : Controls (h.after env c) p' := by
  cases hm with
  | root key =>
    obtain ⟨-, hd⟩ := hc
    simp [Controls, Stacked, Bkv.after, Bkv.openIn, hd]
  | opening key hk =>
    obtain ⟨-, hd, hv⟩ := hc
    refine ⟨rfl, ?_, ?_, ?_⟩
    · simp [Bkv.after, Bkv.openIn, hd]
    · simp [Bkv.after, Bkv.openIn, hd]
    · exact hv.set (by simp [hd]) _
  | closeRoot fr =>
    obtain ⟨-, hd, -⟩ := hc
    obtain ⟨hk, -⟩ := hl
    simp [Controls, Bkv.after, Bkv.closeIn, hd, hk]
  | closing fr o outer =>
    obtain ⟨-, hd, -, hv⟩ := hc
    have hd' : (h.closeIn env fr.kind).deepOffset = outer.length := by
      simp [Bkv.closeIn, hd]
    have hv' : Stacked (h.closeIn env fr.kind).deepValue (o.put fr.closed :: outer) := by
      simp only [Bkv.closeIn]
      split
      · exact (show Stacked _ (o :: outer) from hv).set (by simp [hd]) _
      · exact hv
    have hs' : (h.closeIn env fr.kind).state = stateOf (h.closeIn env fr.kind) :=
      if_pos (by simp [hd])
    refine ⟨?_, hd', hv'⟩
    rw [Bkv.after, hs', stateOf_char (k := o.kind)]
    · rfl
    · rw [hd']
      exact hv'.1
  | add he =>
    obtain ⟨hs, hd, hv⟩ := hc
    obtain ⟨hs', hd', hv'⟩ := add_controls env h _
    exact ⟨hs'.trans hs, hd'.trans hd, hv' ▸ hv⟩

/-- One call of a handle in RAM is one move of the position, or nothing at all. -/
theorem exec_refines (env : Env) {h : Bkv} {p : Position} (hfd : h.fd = -1) (hc : Controls h p)
    (c : Call) :
    (p.next? c = none ∧ (exec env h c).1 ≠ bkvOk ∧ (exec env h c).2 = h) ∨
      ∃ p', p.next? c = some p' ∧ exec env h c = (bkvOk, h.after env c) := by
  rw [exec_eq env hfd, Position.next?]
  by_cases hr : c.inRange
  · by_cases hk : checkFor h c = -1
    · refine .inl ⟨?_, by simp [hr, hk, bkvHdlInv, bkvOk], by simp [hr, hk]⟩
      have hn := mt (check_iff hc c).mpr (not_not_intro hk)
      simpa [hr] using hn
    · obtain ⟨p', hp'⟩ := Option.isSome_iff_exists.mp ((check_iff hc c).mp hk)
      exact .inr ⟨p', by simp [hr, hp'], by simp [hr, hk]⟩
  · exact .inl ⟨by simp [hr], by simp [hr, bkvKeyOutOfRange, bkvOk], by simp [hr]⟩

theorem exec_accepted (env : Env) {h : Bkv} {p : Position} (hfd : h.fd = -1) (hc : Controls h p)
    (c : Call) : (exec env h c).1 = bkvOk ↔ (p.next? c).isSome := by
  rcases exec_refines env hfd hc c with ⟨hn, hr, -⟩ | ⟨p', hn, hr⟩
  · simp [hn, hr]
  · simp [hn, hr]

theorem run_refines (env : Env) {h : Bkv} {p : Position} (hfd : h.fd = -1) (hl : p.Legal)
    (hc : Controls h p) (cs : List Call) :
    ∃ p', track p (accepted env h cs) = some p' ∧ Controls (run env h cs) p' ∧
      (run env h cs).fd = -1 := by
  induction cs generalizing h p with
  | nil => exact ⟨p, rfl, hc, hfd⟩
  | cons c cs ih =>
    rw [accepted, run, List.foldl_cons]
    rcases exec_refines env hfd hc c with ⟨-, hr, hh⟩ | ⟨p', hn, hr⟩
    · rw [if_neg hr, hh]
      exact ih hfd hl hc
    · obtain ⟨-, ha⟩ := next?_eq_some.mp hn
      have hm := advance_eq_some.mp ha
      rw [hr, if_pos rfl, track, ha, Option.bind_some]
      exact ih ((after_fd env h c).trans hfd) (advance_legal hl ha) (after_controls env hl hc hm)

def openStep (ks : List Kind) : Call → List Kind
  | .opening k _ => k :: ks
  | .closing _ => ks.tail
  | .add _ => ks

/-- The kinds of the containers a sequence of calls leaves open, from the innermost. -/
def openKinds (cs : List Call) : List Kind := cs.foldl openStep []

theorem track_kinds {p p' : Position} {cs : List Call} (h : track p cs = some p') :
    cs.foldl openStep (p.frames.map Frame.kind) = p'.frames.map Frame.kind := by
  induction cs generalizing p with
  | nil =>
    obtain rfl : p = p' := by simpa [track] using h
    rfl
  | cons c cs ih =>
    obtain ⟨q, hm, hq⟩ := Option.bind_eq_some_iff.mp h
    have hk : openStep (p.frames.map Frame.kind) c = q.frames.map Frame.kind := by
      cases advance_eq_some.mp hm <;> rfl
    rw [List.foldl_cons, hk, ih hq]

theorem openKinds_track {p : Position} {cs : List Call} (h : track .start cs = some p) :
    openKinds cs = p.frames.map Frame.kind := track_kinds h

theorem freshRam_controls {env : Env} {h : Bkv} (hf : FreshRam env h) :
    h.fd = -1 ∧ Controls h .start := by
  obtain ⟨id, chunk, rfl⟩ := hf.eq
  exact ⟨rfl, rfl, rfl⟩

/-- A handle in RAM accepts the prefixes of documents, keys in range, and nothing else. -/
theorem accepts_documents (env : Env) (h₀ : Bkv) (hf : FreshRam env h₀) (cs : List Call)
    (c : Call) : IsPrefix (accepted env h₀ cs) ∧
    ((exec env (run env h₀ cs) c).1 = bkvOk ↔ IsPrefix (accepted env h₀ cs ++ [c]) ∧ c.inRange) ∧
    (run env h₀ cs).deepOffset + 1 = (openKinds (accepted env h₀ cs)).length ∧
    (∀ k ∈ (openKinds (accepted env h₀ cs)).head?, (run env h₀ cs).state = k.state) ∧
    ((run env h₀ cs).state = .term ↔ IsDoc (accepted env h₀ cs)) ∧
    (bkvKvClosed (run env h₀ cs) ↔ IsDoc (accepted env h₀ cs)) ∧
    ((exec env (run env h₀ cs) c).1 ≠ bkvOk → (exec env (run env h₀ cs) c).2 = run env h₀ cs) := by
  obtain ⟨hfd, hc⟩ := freshRam_controls hf
  obtain ⟨p, ht, hcp, hfd'⟩ := run_refines env hfd (p := .start) trivial hc cs
  have hdoc : (run env h₀ cs).state = .term ↔ IsDoc (accepted env h₀ cs) := by
    rw [isDoc_iff, ht]
    cases p with
    | start => simp [hcp.1]
    | inside fr outer => rcases fr with ⟨_ | _, _, _⟩ <;> simp [hcp.1, Kind.state]
    | complete key body => simp [hcp.1]
  refine ⟨?_, ?_, ?_, ?_, hdoc, ?_, ?_⟩
  · rw [isPrefix_iff, ht, Option.isSome_some]
  · rw [exec_accepted env hfd' hcp, isPrefix_iff, track_snoc ht, Position.next?]
    by_cases hr : c.inRange <;> simp [hr]
  · rw [openKinds_track ht, List.length_map]
    cases p with
    | start => simp [hcp.2, Position.frames]
    | inside fr outer => simp [hcp.2.1, Position.frames]
    | complete key body => simp [hcp.2, Position.frames]
  · rw [openKinds_track ht]
    cases p with
    | inside fr outer => simp [Position.frames, hcp.1]
    | _ => simp [Position.frames]
  · simpa [bkvKvClosed] using hdoc
  · intro hr
    rcases exec_refines env hfd' hcp c with ⟨-, -, hh⟩ | ⟨p', -, ho⟩
    · exact hh
    · exact absurd (congrArg Prod.fst ho) hr

theorem accepts_documents_refused :
    accepted calmEnv ramHandle [.opening .map 1, .closing .array] = [.opening .map 1] ∧
      IsPrefix [.opening .map 1] :=
  ⟨rfl, (accepts_documents calmEnv ramHandle ramHandle_fresh
    [.opening .map 1, .closing .array] (.closing .map)).1⟩

end Wtools
