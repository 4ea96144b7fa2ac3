import Wtools.Refinement

/-!
# The bytes of a document

`enc` gives the bytes of the contents of a container, leaving open those the writer
never stores and the element counts of arrays. Lengths and keys stand in their fields
as the writer truncates them. `Sim` adds to `Controls` that the buffer of the handle
holds the bytes of the position.
-/

namespace Wtools
open ByteMemory Forest

def Entry.pattern (e : Entry) : Pattern := known e.bytes ++ blank e.scalar.gap

@[simp] theorem entry_pattern_length (e : Entry) : e.pattern.length = e.width := by
  simp [Entry.pattern, Entry.width]

/-- The number of bytes of the contents of a container. -/
def size : Items → Nat
  | .nil => 0
  | .leaf e rest => e.width + size rest
  | .node l body rest => l.1.openWidth + size body + l.1.closeWidth + size rest

@[simp] theorem size_append (f g : Items) : size (f ++ g) = size f + size g := by
  induction f with
  | nil => simp [size]
  | leaf e rest ih => simp [size, ih, Nat.add_assoc]
  | node l body rest _ ih => simp [size, ih, Nat.add_assoc]

/-- The header of a container of `n` bytes. -/
def Kind.header (k : Kind) (key : UInt16) (n : Nat) : Pattern :=
  known (setKey k.openType key ++ cpuToLe16 (.ofNat n)) ++ blank (k.openWidth - 4)

@[simp] theorem header_length (k : Kind) (key : UInt16) (n : Nat) :
    (k.header key n).length = k.openWidth := by
  cases k <;> simp [Kind.header, Kind.openWidth]

@[simp] theorem closePattern_length (k : Kind) : k.closePattern.length = k.closeWidth := by
  cases k <;> rfl

def enc : Items → Pattern
  | .nil => []
  | .leaf e rest => e.pattern ++ enc rest
  | .node l body rest =>
    l.1.header l.2 (l.1.openWidth + size body + l.1.closeWidth) ++
      (enc body ++ (l.1.closePattern ++ enc rest))

@[simp] theorem enc_length (f : Items) : (enc f).length = size f := by
  induction f with
  | nil => rfl
  | leaf e rest ih => simp [enc, size, ih]
  | node l body rest ihb ih => simp [enc, size, ihb, ih]; omega

theorem fits_leaf {m : Mem} {off : Nat} {e : Entry} {rest : Items} :
    Fits m off (enc (.leaf e rest)) ↔ Fits m off e.pattern ∧ Fits m (off + e.width) (enc rest) := by
  rw [enc, fits_append, entry_pattern_length]

theorem fits_node {m : Mem} {off : Nat} {k : Kind} {key : UInt16} {body rest : Items} :
    Fits m off (enc (.node (k, key) body rest)) ↔
      Fits m off (k.header key (k.openWidth + size body + k.closeWidth)) ∧
      Fits m (off + k.openWidth) (enc body) ∧
      Fits m (off + k.openWidth + size body) k.closePattern ∧
      Fits m (off + k.openWidth + size body + k.closeWidth) (enc rest) := by
  simp only [enc, fits_append, header_length, enc_length, closePattern_length]

theorem enc_append (f g : Items) : enc (f ++ g) = enc f ++ enc g := by
  induction f with
  | nil => rfl
  | leaf e rest ih => simp [enc, ih]
  | node l body rest _ ih => simp [enc, ih]

/-- An open container in the buffer: its length is not known yet. -/
def Frame.pattern (fr : Frame) : Pattern :=
  known (setKey fr.kind.openType fr.key) ++ (blank (fr.kind.openWidth - 2) ++ enc fr.done)

theorem frame_pattern_length (fr : Frame) :
    fr.pattern.length = fr.kind.openWidth + size fr.done := by
  rcases fr with ⟨_ | _, key, done⟩ <;> simp [Frame.pattern, Kind.openWidth] <;> omega

theorem frame_pattern_put (fr : Frame) (f : Items) :
    (fr.put f).pattern = fr.pattern ++ enc f := by
  simp [Frame.pattern, Frame.put, enc_append]

/-- The open containers follow one another up to `e`; each offset is kept in `mapOffset`. -/
def Laid (m : Mem) (mapOffset : Cells Nat) : List Frame → Nat → Prop
  | [], e => e = 0
  | fr :: outer, e =>
    Laid m mapOffset outer (mapOffset outer.length) ∧
      Fits m (mapOffset outer.length) fr.pattern ∧
      e = mapOffset outer.length + fr.pattern.length

variable {m m' : Mem} {mo mo' : Cells Nat} {e : Nat} {fr o : Frame} {outer frs : List Frame}

theorem Laid.congr (h : Laid m mo frs e) (ha : AgreeOn m m' 0 e)
    (hc : ∀ j : Nat, j < frs.length → mo' j = mo j) : Laid m' mo' frs e := by
  induction frs generalizing e with
  | nil => exact h
  | cons fr outer ih =>
    obtain ⟨ho, hf, rfl⟩ := h
    have hj : mo' outer.length = mo outer.length := hc _ (by simp)
    rw [Laid, hj]
    refine ⟨ih ho (ha.mono (by omega) (by omega)) fun j hj => hc j ?_, ?_, rfl⟩
    · exact Nat.lt_succ_of_lt hj
    · exact hf.congr (ha.mono (by omega) (by omega))

theorem Laid.put (h : Laid m mo (fr :: outer) e) {f : Items} (ha : AgreeOn m m' 0 e)
    (hf : Fits m' e (enc f)) : Laid m' mo (fr.put f :: outer) (e + size f) := by
  obtain ⟨ho, hp, he⟩ : Laid m' mo (fr :: outer) e := h.congr ha fun _ _ => rfl
  refine ⟨ho, ?_, ?_⟩
  · rw [frame_pattern_put, fits_append, ← he]
    exact ⟨hp, hf⟩
  · rw [frame_pattern_put, List.length_append, enc_length, ← Nat.add_assoc, ← he]

theorem Laid.push (h : Laid m mo frs e) (ha : AgreeOn m m' 0 e) (k : Kind) {key : UInt16}
    (hk : Fits m' e (known (setKey k.openType key))) :
    Laid m' (mo.set frs.length e) (⟨k, key, .nil⟩ :: frs) (e + k.openWidth) := by
  rw [Laid, Cells.set_self]
  refine ⟨h.congr ha fun j hj => Cells.set_of_ne _ _ (by omega), ?_, ?_⟩
  · simp only [Frame.pattern, enc, List.append_nil]
    exact fits_append.mpr ⟨hk, fits_blank _⟩
  · rw [frame_pattern_length, size, Nat.add_zero]

/-- Closing a container makes it a finished record of the buffer. -/
theorem Laid.close (h : Laid m mo (fr :: outer) e) (n : Nat) :
    Laid (fr.kind.closeMem m e (mo outer.length) n) mo outer (mo outer.length) ∧
      Fits (fr.kind.closeMem m e (mo outer.length) n) (mo outer.length) (enc fr.closed) ∧
      e + fr.kind.closeWidth = mo outer.length + size fr.closed := by
  obtain ⟨ho, hp, he⟩ := h
  rw [frame_pattern_length] at he
  have hw : 4 ≤ fr.kind.openWidth := by cases fr.kind <;> decide
  have hsize : size fr.closed = fr.kind.openWidth + size fr.done + fr.kind.closeWidth := by
    simp [Frame.closed, size]
  refine ⟨ho.congr (closeMem_below.mono (by omega) (by omega)) fun _ _ => rfl, ?_, by omega⟩
  rw [Frame.pattern, fits_append, fits_append, known_length, setKey_length, blank_length] at hp
  obtain ⟨hkey, -, hbody⟩ := hp
  rw [show mo outer.length + 2 + (fr.kind.openWidth - 2) = mo outer.length + fr.kind.openWidth by
    omega] at hbody
  simp only [Frame.closed, enc, List.append_nil, fits_append, header_length, enc_length]
  refine ⟨fits_append.mpr ⟨?_, fits_blank _⟩, ?_, ?_⟩
  · rw [known_append, fits_append]
    refine ⟨hkey.congr (closeMem_below.mono (by omega) ?_), fits_known.mpr ?_⟩
    · simp only [known_length, setKey_length]
      omega
    · have hl := closeMem_length (m := m) (n := n) (k := fr.kind) (o := mo outer.length) (w := e)
        (by omega)
      rw [← hsize, show size fr.closed = e + fr.kind.closeWidth - mo outer.length by omega]
      exact hl
  · refine hbody.congr (closeMem_body.mono (by omega) ?_)
    rw [enc_length]
    omega
  · rw [← Nat.add_assoc] at he
    rw [← he]
    exact closeMem_closing (by omega)

/-- The buffer of a handle holds the bytes of a position. -/
def LaidOut (h : Bkv) : Position → Prop
  | .start => h.writeOffset = 0
  | .inside fr outer => Laid h.ptr h.mapOffset (fr :: outer) h.writeOffset
  | .complete key body =>
    Fits h.ptr 0 (enc (.node (.map, key) body .nil)) ∧
      h.writeOffset = size (.node (.map, key) body .nil)

theorem add_buffer (env : Env) (h : Bkv) (e : Entry) :
    (h.add env e).ptr = put h.ptr h.writeOffset e.bytes ∧
      (h.add env e).writeOffset = h.writeOffset + e.width ∧
        (h.add env e).mapOffset = h.mapOffset := by
  simp only [Bkv.add, Entry.width, ← Nat.add_assoc]
  split <;> exact ⟨rfl, rfl, rfl⟩

theorem put_entry (m : Mem) (off : Nat) (e : Entry) : Fits (put m off e.bytes) off e.pattern :=
  fits_append.mpr ⟨fits_put, fits_blank _⟩

theorem after_laid (env : Env) {h : Bkv} {p p' : Position} {c : Call} (hl : p.Legal)
    (hc : Controls h p) (hp : LaidOut h p) (hm : Move p c p') : LaidOut (h.after env c) p' := by
  cases hm with
  | root key =>
    obtain ⟨-, hd⟩ := hc
    have hw : h.writeOffset = 0 := hp
    have h0 : Laid h.ptr h.mapOffset [] h.writeOffset := hw
    have hpush := h0.push (put_agree_below (Nat.le_refl _)) .map
      (fits_put : Fits _ _ (known (setKey Kind.map.openType key)))
    rw [LaidOut, Bkv.after, Bkv.openIn, hd]
    exact hpush
  | @opening fr outer k key hk =>
    obtain ⟨-, hd, -⟩ := hc
    have hpush := Laid.push hp (put_agree_below (Nat.le_refl _)) k
      (fits_put : Fits _ _ (known (setKey k.openType key)))
    have hw : h.writeOffset + 2 + (k.openWidth - 2) = h.writeOffset + k.openWidth := by
      cases k <;> rfl
    simpa [LaidOut, Bkv.after, Bkv.openIn, Bkv.emit, Bkv.store, Bkv.skip, grow, hd, hw] using hpush
  | closeRoot fr =>
    obtain ⟨-, hd, -⟩ := hc
    obtain ⟨hk, -⟩ := hl
    obtain ⟨h0, hf, hs⟩ := Laid.close hp (h.arrayNbElems h.deepOffset)
    replace hd : h.deepOffset = 0 := hd
    replace h0 : h.mapOffset 0 = 0 := h0
    replace hs : h.writeOffset + fr.kind.closeWidth = h.mapOffset 0 + size fr.closed := hs
    replace hf : Fits (fr.kind.closeMem h.ptr h.writeOffset (h.mapOffset 0)
      (h.arrayNbElems h.deepOffset)) (h.mapOffset 0) (enc fr.closed) := hf
    rw [Frame.closed, hk, h0, hd] at hf
    rw [Frame.closed, hk, h0, Nat.zero_add] at hs
    refine ⟨?_, ?_⟩
    · simpa [Bkv.after, Bkv.closeIn, hd, hk, h0] using hf
    · simpa [Bkv.after, Bkv.closeIn, hk] using hs
  | closing fr o outer =>
    obtain ⟨-, hd, -⟩ := hc
    obtain ⟨ho, hf, hs⟩ := Laid.close hp (h.arrayNbElems h.deepOffset)
    have hput := ho.put .refl hf
    rw [← hs, ← hd] at hput
    exact hput
  | @add fr outer e he =>
    obtain ⟨hptr, hw, hmo⟩ := add_buffer env h e
    rw [LaidOut, Bkv.after, hptr, hw, hmo]
    apply Laid.put (f := .leaf e .nil) hp (put_agree_below (Nat.le_refl _))
    simpa [enc] using put_entry h.ptr h.writeOffset e

/-- A handle in RAM that has written a document up to a position. -/
structure Sim (h : Bkv) (p : Position) : Prop where
  ram : h.fd = -1
  legal : p.Legal
  controls : Controls h p
  laid : LaidOut h p

theorem Sim.after (env : Env) {h : Bkv} {p p' : Position} {c : Call} (hs : Sim h p)
    (ha : advance p c = some p') : Sim (h.after env c) p' where
  ram := (after_fd env h c).trans hs.ram
  legal := advance_legal hs.legal ha
  controls := after_controls env hs.legal hs.controls (advance_eq_some.mp ha)
  laid := after_laid env hs.legal hs.controls hs.laid (advance_eq_some.mp ha)

theorem Sim.exec (env : Env) {h : Bkv} {p : Position} (hs : Sim h p) (c : Call) :
    Sim (exec env h c).2 (p.next c) := by
  rcases exec_refines env hs.ram hs.controls c with ⟨hn, -, hh⟩ | ⟨p', hn, hr⟩
  · rw [hh, Position.next, hn]
    exact hs
  · rw [hr, Position.next, hn]
    exact hs.after env (next?_eq_some.mp hn).2

/-- The first call of a run is accepted, and the run goes on behind it. -/
theorem Sim.runOk_cons {env : Env} {h h' : Bkv} {p : Position} {c : Call} {cs : List Call}
    (hs : Sim h p) (hr : Wtools.runOk env h (c :: cs) = some h') :
    ∃ p', p.next? c = some p' ∧ Sim (h.after env c) p' ∧
      Wtools.runOk env (h.after env c) cs = some h' := by
  rw [Wtools.runOk] at hr
  split at hr
  · rename_i hok
    rcases exec_refines env hs.ram hs.controls c with ⟨-, hne, -⟩ | ⟨p', hn, hx⟩
    · exact absurd hok hne
    · rw [hx] at hr
      exact ⟨p', hn, hs.after env (next?_eq_some.mp hn).2, hr⟩
  · cases hr

theorem Sim.runOk (env : Env) {h h' : Bkv} {p : Position} {cs : List Call} (hs : Sim h p)
    (hr : runOk env h cs = some h') :
    ∃ p', track p cs = some p' ∧ Sim h' p' ∧ ∀ c ∈ cs, c.inRange := by
  induction cs generalizing h p with
  | nil =>
    obtain rfl : h = h' := by simpa [Wtools.runOk] using hr
    exact ⟨p, rfl, hs, by simp⟩
  | cons c cs ih =>
    obtain ⟨p', hn, hs', hr'⟩ := hs.runOk_cons hr
    obtain ⟨hc, ha⟩ := next?_eq_some.mp hn
    obtain ⟨q, hq, hsq, hcs⟩ := ih hs' hr'
    exact ⟨q, by rw [track, ha, Option.bind_some, hq], hsq, List.forall_mem_cons.mpr ⟨hc, hcs⟩⟩

/-- A finished run of records spliced in becomes contents of the innermost container. -/
theorem Sim.append_ok (env : Env) {h : Bkv} {fr : Frame} {outer : List Frame} {a : Tail} {g : Items}
    (hs : Sim h (.inside fr outer)) (hg : Legal fr.kind g) (hfit : ByteMemory.Fits a.ptr 0 (enc g))
    (hsize : a.writeOffset = size g) (hok : (bkvAppend env h a).1 = bkvOk) :
    Sim (bkvAppend env h a).2 (.inside (fr.put g) outer) := by
  have hcopy : ByteMemory.Fits (put h.ptr h.writeOffset (slice a.ptr 0 a.writeOffset)) h.writeOffset
      (enc g) := by
    apply hfit.copy
    rw [enc_length, ← hsize]
    exact holds_put.eq_slice (slice_length _)
  have hlaid : Laid (put h.ptr h.writeOffset (slice a.ptr 0 a.writeOffset)) h.mapOffset
      (fr.put g :: outer) (h.writeOffset + a.writeOffset) := by
    have hput := Laid.put hs.laid (put_agree_below (Nat.le_refl _)) hcopy
    rwa [← hsize] at hput
  have hlen : (slice a.ptr 0 a.writeOffset).length = a.writeOffset := slice_length _
  rcases bkvAppend_cases env h a with ⟨hne, -⟩ | ⟨n, happ⟩
  · exact absurd hok hne
  · rw [happ]
    refine ⟨hs.ram, hs.legal.put hg, hs.controls, ?_⟩
    simpa [LaidOut, Bkv.emit, Bkv.store, Bkv.skip, hlen] using hlaid

theorem Sim.append (env : Env) {h : Bkv} {fr : Frame} {outer : List Frame} {a : Tail} {g : Items}
    (hs : Sim h (.inside fr outer)) (hre : ∀ n, env.realloc n) (hg : Legal fr.kind g)
    (hfit : ByteMemory.Fits a.ptr 0 (enc g)) (hsize : a.writeOffset = size g) :
    (bkvAppend env h a).1 = bkvOk ∧ Sim (bkvAppend env h a).2 (.inside (fr.put g) outer) :=
  ⟨append_granted env a hs.ram hre, hs.append_ok env hg hfit hsize (append_granted env a hs.ram hre)⟩

theorem freshRam_sim {env : Env} {h : Bkv} (hf : FreshRam env h) : Sim h .start := by
  obtain ⟨hfd, hc⟩ := freshRam_controls hf
  obtain ⟨id, chunk, rfl⟩ := hf.eq
  exact ⟨hfd, trivial, hc, rfl⟩

theorem Sim.complete {h : Bkv} {p : Position} (hs : Sim h p) (ht : h.state = .term) :
    ∃ key body, p = .complete key body := by
  cases p with
  | start => simp [hs.controls.1] at ht
  | inside fr outer => rcases fr with ⟨_ | _, _, _⟩ <;> simp [hs.controls.1, Kind.state] at ht
  | complete key body => exact ⟨key, body, rfl⟩

/-- A handle whose calls were all accepted and whose root map is closed holds the bytes of
the one document that these calls spell. -/
theorem Sim.closed {env : Env} {h₀ h : Bkv} {cs : List Call} (hs₀ : Sim h₀ .start)
    (hr : Wtools.runOk env h₀ cs = some h) (ht : h.state = .term) :
    (∀ c ∈ cs, c.inRange) ∧ ∃ key body, Legal .map body ∧
      cs = calls (.node (.map, key) body .nil) ∧
      Fits h.ptr 0 (enc (.node (.map, key) body .nil)) ∧
      h.writeOffset = size (.node (.map, key) body .nil) := by
  obtain ⟨p, hp, hs, hc⟩ := hs₀.runOk env hr
  obtain ⟨hl, hcs⟩ := track_spells hp
  obtain ⟨key, body, rfl⟩ := hs.complete ht
  exact ⟨hc, key, body, hl, hcs.symm, hs.laid⟩

theorem closed_layout {env : Env} {h₀ h : Bkv} {cs : List Call} (hf : FreshRam env h₀)
    (hr : runOk env h₀ cs = some h) (ht : h.state = .term) :
    (∀ c ∈ cs, c.inRange) ∧ ∃ key body, Legal .map body ∧
      cs = calls (.node (.map, key) body .nil) ∧
      Fits h.ptr 0 (enc (.node (.map, key) body .nil)) ∧
      h.writeOffset = size (.node (.map, key) body .nil) :=
  (freshRam_sim hf).closed hr ht

/-- A run of the calls of a document leaves its bytes. -/
theorem document_laid {env : Env} {h₀ h : Bkv} {key : UInt16} {body : Items} (hf : FreshRam env h₀)
    (hl : Legal .map body) (hr : runOk env h₀ (calls (.node (.map, key) body .nil)) = some h) :
    Fits h.ptr 0 (enc (.node (.map, key) body .nil)) ∧
      h.writeOffset = size (.node (.map, key) body .nil) ∧
      ∀ c ∈ calls (.node (.map, key) body .nil), c.inRange := by
  obtain ⟨p, hp, hsim, hin⟩ := (freshRam_sim hf).runOk env hr
  rw [track_doc hl, Option.some.injEq] at hp
  subst hp
  exact ⟨hsim.laid.1, hsim.laid.2, hin⟩

end Wtools
