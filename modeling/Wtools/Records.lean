import Wtools.Bounds
import Wtools.Fields
import Wtools.ReadBack

/-!
# A document record by record

The bytes, the invocations and the fields of a document read along the sequence of its calls,
where a document can be cut at any call, and what an accepted call leaves of the bytes that were
there before.
-/

namespace Wtools
open ByteMemory Forest

/-- The levels a call goes down. -/
def Call.step : Call → Int
  | .opening _ _ => 1
  | .closing _ => -1
  | .add _ => 0

def steps : List Call → Int
  | [] => 0
  | c :: cs => c.step + steps cs

def widths : List Call → Nat
  | [] => 0
  | c :: cs => c.width + widths cs

@[simp] theorem steps_nil : steps [] = 0 := rfl

@[simp] theorem steps_cons (c : Call) (cs : List Call) : steps (c :: cs) = c.step + steps cs := rfl

@[simp] theorem steps_append (cs ds : List Call) : steps (cs ++ ds) = steps cs + steps ds := by
  induction cs with
  | nil => exact (Int.zero_add _).symm
  | cons c cs ih => rw [List.cons_append, steps_cons, ih, steps_cons, Int.add_assoc]

@[simp] theorem widths_nil : widths [] = 0 := rfl

@[simp] theorem widths_cons (c : Call) (cs : List Call) :
    widths (c :: cs) = c.width + widths cs := rfl

@[simp] theorem widths_append (cs ds : List Call) : widths (cs ++ ds) = widths cs + widths ds := by
  induction cs with
  | nil => exact (Nat.zero_add _).symm
  | cons c cs ih => rw [List.cons_append, widths_cons, ih, widths_cons, Nat.add_assoc]

theorem widths_calls (f : Items) : widths (calls f) = size f := by
  induction f with
  | nil => rfl
  | leaf e rest ih => rw [calls_leaf, widths_cons, ih, size, Call.width]
  | node l body rest ihb ih =>
    rw [calls_node, widths_cons, widths_append, widths_cons, ihb, ih, size, Call.width, Call.width]
    omega

theorem steps_calls (f : Items) : steps (calls f) = 0 := by
  induction f with
  | nil => rfl
  | leaf e rest ih => rw [calls_leaf, steps_cons, ih, Call.step, Int.zero_add]
  | node l body rest ihb ih =>
    rw [calls_node, steps_cons, steps_append, steps_cons, ihb, ih, Call.step, Call.step]
    omega

section Events

def callEvent (ck cn : Nat → UInt16) (deep : Int) (off : Nat) : Call → Event
  | .opening k key => openEvent off key (cn off) k
  | .closing k => closeEvent (ck off) k
  | .add e => scalarEvent off deep e.key e.scalar

/-- The invocations for the records from `off` on, with `deep` containers open. -/
def callEvents (ck cn : Nat → UInt16) : Int → Nat → List Call → List Event
  | _, _, [] => []
  | deep, off, c :: cs =>
    callEvent ck cn deep off c :: callEvents ck cn (deep + c.step) (off + c.width) cs

variable {ck cn : Nat → UInt16}

theorem callEvents_append (deep : Int) (off : Nat) (cs ds : List Call) :
    callEvents ck cn deep off (cs ++ ds) =
      callEvents ck cn deep off cs ++ callEvents ck cn (deep + steps cs) (off + widths cs) ds := by
  induction cs generalizing deep off with
  | nil => simp [callEvents]
  | cons c cs ih =>
    rw [List.cons_append, callEvents, ih, callEvents, steps_cons, widths_cons, List.cons_append,
      Int.add_assoc, Nat.add_assoc]

theorem visits_eq (deep : Int) (off : Nat) (f : Items) :
    (placed ck cn deep off f).visits = callEvents ck cn deep off (calls f) := by
  induction f generalizing deep off with
  | nil => rfl
  | leaf e rest ih =>
    rw [placed, visits, ih, calls_leaf, callEvents, Call.step, Int.add_zero]
    rfl
  | node l body rest ihb ih =>
    obtain ⟨k, key⟩ := l
    have hdeep : deep + 1 + -1 = deep := by omega
    rw [placed, visits, ihb, ih, calls_node, callEvents, callEvents_append, callEvents, steps_calls,
      widths_calls, Int.add_zero]
    simp only [Call.step, Call.width, hdeep]
    rfl

end Events

section Bytes

/-- The adds of a sequence of calls lie in the memory from `off` on. -/
def RecordsFit (m : Mem) : Nat → List Call → Prop
  | _, [] => True
  | off, c :: cs =>
    (∀ e, c = .add e → ByteMemory.Fits m off e.pattern) ∧ RecordsFit m (off + c.width) cs

variable {m : Mem} {off : Nat}

theorem recordsFit_append {cs ds : List Call} :
    RecordsFit m off (cs ++ ds) ↔ RecordsFit m off cs ∧ RecordsFit m (off + widths cs) ds := by
  induction cs generalizing off with
  | nil => simp [RecordsFit]
  | cons c cs ih => simp only [List.cons_append, RecordsFit, ih, widths_cons, Nat.add_assoc, and_assoc]

theorem recordsFit_calls {f : Items} (h : ByteMemory.Fits m off (enc f)) :
    RecordsFit m off (calls f) := by
  induction f generalizing off with
  | nil => trivial
  | leaf e rest ih =>
    rw [fits_leaf] at h
    refine ⟨?_, ih h.2⟩
    intro e' he'
    cases he'
    exact h.1
  | node l body rest ihb ih =>
    obtain ⟨k, key⟩ := l
    obtain ⟨-, hb, -, hrest⟩ := fits_node.mp h
    rw [calls_node]
    refine ⟨by simp, recordsFit_append.mpr ⟨ihb hb, by simp, ?_⟩⟩
    rw [widths_calls]
    exact ih hrest

end Bytes

section Shown

/-- What is seen of the record of a call. Of a wide string only the first quarter is stored. -/
def Shows (deep : Int) : Call → Seen → Prop
  | .opening .map key, s => s = .mapOpen key
  | .opening .array key, s => s = .arrayOpen key
  | .closing .map, s => s = .mapClose
  | .closing .array, s => s = .arrayClose
  | .add (.keyed key (.double v)), s => s = .double key (doubleStored v)
  | .add (.keyed key (.wchar str)), s => ∃ bytes, s = .str key (some bytes) ∧
      bytes.length = str.length * sizeofWchar ∧ (wcharBytes str).take str.length <+: bytes
  | .add e, s => s = scalarSeen deep e.key e.scalar

/-- The invocations seen are those of the calls, one by one. -/
def ShowsAll : Int → List Call → List Seen → Prop
  | _, [], [] => True
  | deep, c :: cs, s :: l => Shows deep c s ∧ ShowsAll (deep + c.step) cs l
  | _, _, _ => False

variable {z : Zone} {off : Nat}

theorem shows_add (deep : Int) {e : Entry} (h : ByteMemory.Fits z.mem off e.pattern)
    (hz : off + e.width ≤ z.size) :
    Shows deep (.add e) ((scalarEvent off deep e.key e.scalar).seen z) := by
  cases e with
  | elem v => exact scalar_seen deep h hz rfl
  | keyed key v =>
    cases v with
    | double d => exact rfl
    | wchar str =>
      have hw : ((wcharBytes str).take str.length).length = str.length := by
        rw [List.length_take, wcharBytes_length]
        omega
      rw [Entry.pattern, fits_append, fits_known, Entry.bytes, Entry.scalar, Scalar.payload,
        holds_append, holds_append] at h
      simp only [Entry.width, Entry.bytes, Entry.scalar, Scalar.payload, Scalar.gap,
        List.length_append, setKey_length, cpuToLe16_length, hw] at hz
      have hlen : str.length * sizeofWchar = str.length + 3 * str.length := by
        rw [sizeofWchar]
        omega
      refine ⟨slice z.mem (off + 4) (str.length * sizeofWchar), ?_, slice_length _, ?_⟩
      · have hfits : off + 4 + str.length * sizeofWchar ≤ z.size := by omega
        simp only [Entry.scalar, scalarEvent, Event.seen, Zone.slice?, if_pos hfits]
        rfl
      · have hstored : slice z.mem (off + 4) str.length = (wcharBytes str).take str.length :=
          h.1.2.2.eq_slice hw
        rw [hlen, slice_add, hstored]
        exact List.prefix_append ..
    | _ => exact scalar_seen deep h hz rfl

theorem shows_call (ck cn : Nat → UInt16) (deep : Int) {c : Call}
    (h : ∀ e, c = .add e → ByteMemory.Fits z.mem off e.pattern) (hz : off + c.width ≤ z.size) :
    Shows deep c ((callEvent ck cn deep off c).seen z) := by
  cases c with
  | opening k key => cases k <;> exact rfl
  | closing k => cases k <;> exact rfl
  | add e => exact shows_add deep (h e rfl) hz

theorem showsAll_calls (ck cn : Nat → UInt16) (deep : Int) {cs : List Call}
    (h : RecordsFit z.mem off cs) (hz : off + widths cs ≤ z.size) :
    ShowsAll deep cs ((callEvents ck cn deep off cs).map (Event.seen z)) := by
  induction cs generalizing deep off with
  | nil => trivial
  | cons c cs ih =>
    rw [widths_cons] at hz
    exact ⟨shows_call ck cn deep h.1 (by omega), ih _ h.2 (by omega)⟩

/-- An invocation at another depth. -/
def Seen.shift (d : Int) : Seen → Seen
  | .uint16 deep key v => .uint16 (deep + d) key v
  | .uint32 deep key v => .uint32 (deep + d) key v
  | .uint64 deep key v => .uint64 (deep + d) key v
  | s => s

variable {z' : Zone} {n w : Nat} {d : Int}

theorem slice?_copied (hb : slice z.mem w n = slice z'.mem 0 n) (hz : w + n ≤ z.size)
    (hz' : n ≤ z'.size) {o k : Nat} (ho : o + k ≤ n) :
    z.slice? (w + o) k = z'.slice? o k := by
  rw [Zone.slice?, Zone.slice?, if_pos (by omega), if_pos (by omega), Option.some.injEq]
  apply List.ext_getElem?
  intro i
  have hget : (slice z.mem w n)[o + i]? = (slice z'.mem 0 n)[o + i]? :=
    congrArg (fun l => l[o + i]?) hb
  rw [slice_getElem?, slice_getElem?] at hget ⊢
  by_cases hi : i < k
  · rw [if_pos (by omega), if_pos (by omega), Nat.zero_add, ← Nat.add_assoc] at hget
    rw [if_pos hi, if_pos hi, hget]
  · rw [if_neg hi, if_neg hi]

theorem seen_copied (ck cn ck' cn' : Nat → UInt16) (hb : slice z.mem w n = slice z'.mem 0 n)
    (hz : w + n ≤ z.size) (hz' : n ≤ z'.size) {deep : Int} {c : Call} (ho : off + c.width ≤ n) :
    (callEvent ck cn (deep + d) (w + off) c).seen z =
      ((callEvent ck' cn' deep off c).seen z').shift d := by
  have hstr : ∀ key len, 4 + len ≤ c.width →
      (Event.str (w + off + 4) key (w + off + 4) len).seen z =
        ((Event.str (off + 4) key (off + 4) len).seen z').shift d := by
    intro key len hlen
    have hcopied := slice?_copied (o := off + 4) (k := len) hb hz hz' (by omega)
    simp only [Event.seen, Seen.shift, ← hcopied, Nat.add_assoc]
  cases c with
  | opening k key => cases k <;> rfl
  | closing k => cases k <;> rfl
  | add e =>
    simp only [callEvent, Call.width, Entry.width, Entry.bytes] at hstr ⊢
    cases hv : e.scalar with
    | str s =>
      apply hstr
      simp only [hv, Scalar.payload, Scalar.gap, List.length_append, setKey_length,
        cpuToLe16_length]
      omega
    | wchar s =>
      apply hstr
      simp only [hv, Scalar.payload, Scalar.gap, List.length_append, setKey_length,
        cpuToLe16_length, List.length_take, wcharBytes_length, sizeofWchar]
      omega
    | _ => rfl

theorem seen_copied_all (ck cn ck' cn' : Nat → UInt16) (hb : slice z.mem w n = slice z'.mem 0 n)
    (hz : w + n ≤ z.size) (hz' : n ≤ z'.size) {deep : Int} {cs : List Call}
    (ho : off + widths cs ≤ n) :
    (callEvents ck cn (deep + d) (w + off) cs).map (Event.seen z) =
      ((callEvents ck' cn' deep off cs).map (Event.seen z')).map (Seen.shift d) := by
  induction cs generalizing deep off with
  | nil => rfl
  | cons c cs ih =>
    rw [widths_cons] at ho
    have hdeep : deep + d + c.step = deep + c.step + d := by omega
    have hrest :
        (callEvents ck cn (deep + c.step + d) (w + (off + c.width)) cs).map (Event.seen z) =
          ((callEvents ck' cn' (deep + c.step) (off + c.width) cs).map (Event.seen z')).map
            (Seen.shift d) := ih (by omega)
    rw [← hdeep, ← Nat.add_assoc] at hrest
    simp only [callEvents, List.map_cons, hrest, List.cons.injEq, and_true]
    exact seen_copied ck cn ck' cn' hb hz hz' (by omega)

end Shown

/-- In a document of at most 65535 bytes with keys of 12 bits every field is large enough. -/
theorem fieldsFit_calls {f : Items} (hsize : size f ≤ 65535)
    (hk : ∀ k key, .opening k key ∈ calls f → key ≤ 0xFFF) {cs : List Call} (hcs : FieldsFit cs) :
    FieldsFit (calls f ++ cs) := by
  induction f generalizing cs with
  | nil => exact hcs
  | leaf e rest ih =>
    rw [size] at hsize
    refine ⟨?_, ih (by omega) (fun k key h => hk k key (by simp [h])) hcs⟩
    have hlen := strLen_le_width e
    omega
  | node l body rest ihb ih =>
    obtain ⟨k, key⟩ := l
    rw [size] at hsize
    dsimp only at hsize
    rw [calls_node, List.cons_append, List.append_assoc, List.cons_append]
    refine ⟨⟨hk k key (by simp), ?_⟩, ?_⟩
    · rw [extent_calls]
      omega
    · exact ihb (by omega) (fun k key h => hk k key (by simp [h]))
        (ih (by omega) (fun k key h => hk k key (by simp [h])) hcs)

section Frame

variable {env : Env} {h h' : Bkv} {p p' : Position} {c : Call} {lo hi : Nat}

/-- A call writes at the end of the document, and a close also into the header it closes. -/
theorem after_frame (env : Env) (hhi : hi ≤ h.writeOffset)
    (hclose : ∀ k, c = .closing k →
      h.mapOffset h.deepOffset + k.openWidth ≤ lo ∨ hi ≤ h.mapOffset h.deepOffset) :
    AgreeOn h.ptr (h.after env c).ptr lo hi := by
  cases c with
  | opening k key => exact put_agree_below hhi
  | add e =>
    rw [Bkv.after, (add_buffer env h e).1]
    exact put_agree_below hhi
  | closing k =>
    rcases hclose k rfl with hlo | hlo
    · exact closeMem_body.mono hlo hhi
    · exact closeMem_below.mono (Nat.zero_le _) (by omega)

theorem after_step (env : Env) (h : Bkv) (c : Call) :
    (h.after env c).deepOffset = h.deepOffset + c.step := by
  cases c with
  | opening k key => rfl
  | closing k => rfl
  | add e => exact (add_controls env h e).2.1.trans (Int.add_zero _).symm

theorem runOk_append (env : Env) (h : Bkv) (cs ds : List Call) :
    runOk env h (cs ++ ds) = (runOk env h cs).bind fun h' => runOk env h' ds := by
  induction cs generalizing h with
  | nil => rfl
  | cons c cs ih =>
    rw [List.cons_append, runOk, runOk]
    split
    · exact ih _
    · rfl

theorem runOk_moves {cs : List Call} (hs : Sim h p) (hr : runOk env h cs = some h') :
    h'.writeOffset = h.writeOffset + widths cs ∧ h'.deepOffset = h.deepOffset + steps cs := by
  induction cs generalizing h p with
  | nil =>
    cases hr
    simp
  | cons c cs ih =>
    obtain ⟨p', -, hs', hr'⟩ := hs.runOk_cons hr
    obtain ⟨hw, hd⟩ := ih hs' hr'
    rw [hw, hd, (after_room env h c).2.1, after_step, widths_cons, steps_cons]
    exact ⟨Nat.add_assoc .., Int.add_assoc ..⟩

/-- A run from the start of a document has written what its calls are wide. -/
theorem fresh_moves {h₀ : Bkv} {cs : List Call} (hs₀ : Sim h₀ .start)
    (hr : runOk env h₀ cs = some h) :
    h.writeOffset = widths cs ∧ h.deepOffset + 1 = steps cs := by
  obtain ⟨hw, hd⟩ := runOk_moves hs₀ hr
  have hw₀ : h₀.writeOffset = 0 := hs₀.laid
  have hd₀ : h₀.deepOffset = -1 := hs₀.controls.2
  omega

/-- The headers of the open containers lie outside a range of addresses. -/
def Apart (mapOffset : Cells Nat) (lo hi : Nat) : List Frame → Prop
  | [] => True
  | fr :: outer =>
    (mapOffset outer.length + fr.kind.openWidth ≤ lo ∨ hi ≤ mapOffset outer.length) ∧
      Apart mapOffset lo hi outer

theorem Apart.congr {mo mo' : Cells Nat} {frs : List Frame} (h : Apart mo lo hi frs)
    (hc : ∀ j : Nat, j < frs.length → mo' j = mo j) : Apart mo' lo hi frs := by
  induction frs with
  | nil => trivial
  | cons fr outer ih =>
    refine ⟨?_, ih h.2 fun j hj => hc j (Nat.lt_succ_of_lt hj)⟩
    rw [hc outer.length (by simp)]
    exact h.1

theorem Laid.apart {m : Mem} {mo : Cells Nat} {frs : List Frame} {e : Nat} (h : Laid m mo frs e)
    (he : e ≤ lo) : Apart mo lo hi frs := by
  induction frs generalizing e with
  | nil => trivial
  | cons fr outer ih =>
    obtain ⟨ho, -, hlen⟩ := h
    rw [frame_pattern_length] at hlen
    exact ⟨.inl (by omega), ih ho (by omega)⟩

theorem after_apart (env : Env) (hc : Controls h p) (hm : Move p c p') (hhi : hi ≤ h.writeOffset)
    (ha : Apart h.mapOffset lo hi p.frames) : Apart (h.after env c).mapOffset lo hi p'.frames := by
  cases hm with
  | root key =>
    have hmo : (h.after env (.opening .map key)).mapOffset =
        h.mapOffset.set ([] : List Frame).length h.writeOffset := by
      rw [Bkv.after, Bkv.openIn, hc.2]
      rfl
    rw [hmo]
    refine ⟨.inr ?_, trivial⟩
    rw [Cells.set_self]
    exact hhi
  | @opening fr outer k key hk =>
    obtain ⟨-, hd, -⟩ := hc
    have hmo : (h.after env (.opening k key)).mapOffset =
        h.mapOffset.set (fr :: outer).length h.writeOffset := by
      rw [Bkv.after, Bkv.openIn, hd]
      rfl
    rw [hmo]
    refine ⟨.inr ?_, ha.congr fun j hj => ?_⟩
    · rw [Cells.set_self]
      exact hhi
    · have hj' : j < (fr :: outer).length := hj
      exact Cells.set_of_ne _ _ (by omega)
  | closeRoot fr => trivial
  | closing fr o outer => exact ha.2
  | add he =>
    rw [Bkv.after, (add_buffer env h _).2.2]
    exact ha

/-- What lies between the open headers and the end of the document is kept by a call, and lies there
after it. -/
theorem exec_frame (env : Env) (hs : Sim h p) (hhi : hi ≤ h.writeOffset)
    (ha : Apart h.mapOffset lo hi p.frames) (c : Call) :
    AgreeOn h.ptr (exec env h c).2.ptr lo hi ∧ hi ≤ (exec env h c).2.writeOffset ∧
      Apart (exec env h c).2.mapOffset lo hi (p.next c).frames := by
  rcases exec_refines env hs.ram hs.controls c with ⟨hn, -, hh⟩ | ⟨p', hn, hx⟩
  · rw [hh, Position.next, hn]
    exact ⟨.refl, hhi, ha⟩
  · have hm := advance_eq_some.mp (next?_eq_some.mp hn).2
    obtain ⟨-, hw, -⟩ := after_room env h c
    rw [hx, Position.next, hn]
    refine ⟨after_frame env hhi ?_, by dsimp only; omega, after_apart env hs.controls hm hhi ha⟩
    intro k hk
    subst hk
    cases hm with
    | closeRoot fr =>
      rw [hs.controls.2.1]
      exact ha.1
    | closing fr o outer =>
      rw [hs.controls.2.1]
      exact ha.1

theorem run_frame (env : Env) (cs : List Call) (hs : Sim h p) (hhi : hi ≤ h.writeOffset)
    (ha : Apart h.mapOffset lo hi p.frames) : AgreeOn h.ptr (run env h cs).ptr lo hi := by
  induction cs generalizing h p with
  | nil => exact .refl
  | cons c cs ih =>
    obtain ⟨hkept, hhi', ha'⟩ := exec_frame env hs hhi ha c
    exact hkept.trans (ih (hs.exec env c) hhi' ha')

theorem runOk_run {cs : List Call} (hr : runOk env h cs = some h') : run env h cs = h' := by
  induction cs generalizing h with
  | nil => exact Option.some.inj hr
  | cons c cs ih =>
    rw [runOk] at hr
    split at hr
    · exact ih hr
    · cases hr

theorem runOk_frame {cs : List Call} (hs : Sim h p) (hr : runOk env h cs = some h')
    (hhi : hi ≤ h.writeOffset) (ha : Apart h.mapOffset lo hi p.frames) :
    AgreeOn h.ptr h'.ptr lo hi := by
  rw [← runOk_run hr]
  exact run_frame env cs hs hhi ha

/-- While a container is filled, its slot of the stack holds the offset of its header. -/
theorem opened_header {k : Kind} {key : UInt16} {body : Items} (hs : Sim h p)
    (hr : runOk env h (.opening k key :: calls body) = some h') :
    h'.mapOffset h'.deepOffset = h.writeOffset := by
  have hw := (runOk_moves hs hr).1
  rw [widths_cons, widths_calls, Call.width] at hw
  obtain ⟨p', hp', hs', -⟩ := hs.runOk env hr
  rw [track, Option.bind_eq_some_iff] at hp'
  obtain ⟨q, hq, hp'⟩ := hp'
  obtain ⟨outer, rfl⟩ : ∃ outer, q = .inside ⟨k, key, .nil⟩ outer := by
    cases advance_eq_some.mp hq with
    | root key => exact ⟨[], rfl⟩
    | opening key hk => exact ⟨_, rfl⟩
  obtain rfl := track_contents hp'
  obtain ⟨-, -, he⟩ := hs'.laid
  rw [frame_pattern_length, Frame.put_done, nil_append, Frame.put_kind] at he
  dsimp only at he
  rw [hs'.controls.2.1]
  omega

/-- No header that is open lies in a container that was opened, filled and closed. -/
theorem closed_apart {k : Kind} {key : UInt16} {body : Items} (hs : Sim h p)
    (hr : runOk env h (calls (.node (k, key) body .nil)) = some h') :
    ∃ p', Sim h' p' ∧ Apart h'.mapOffset h.writeOffset h'.writeOffset p'.frames := by
  have hw := (runOk_moves hs hr).1
  obtain ⟨p', hp', hs', -⟩ := hs.runOk env hr
  refine ⟨p', hs', ?_⟩
  rw [widths_calls] at hw
  rcases track_node hp' with ⟨-, rfl⟩ | ⟨fr, outer, -, rfl⟩
  · trivial
  · obtain ⟨ho, -, he⟩ := hs'.laid
    rw [frame_pattern_length, Frame.put_done, size_append, Frame.put_kind] at he
    exact ⟨.inl (by rw [Frame.put_kind]; omega), ho.apart (by omega)⟩

end Frame

end Wtools
