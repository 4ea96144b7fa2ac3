import Wtools.Fields
import Wtools.Traverse
import Wtools.Untrusted

/-!
# The stack of open containers

A handle keeps the offsets of the open headers in `map_offset`, their kinds in `deep_value` and the
level of the innermost one in `deep_offset`. Each header is followed, up to the next one or to the
write offset, by complete records, as the bytes alone tell them.
-/

namespace Wtools
open ByteMemory Forest

section Records

def HeaderType.holdsScalar : HeaderType → Bool
  | .mapOpen | .mapClose | .arrayOpen | .arrayClose => false
  | _ => true

/-- The bytes from one offset up to another are the records of scalars and of closed containers. -/
inductive CompleteRecords (z : Zone) : Nat → Nat → Prop
  | nil (off : Nat) : CompleteRecords z off off
  | scalar {off e : Nat} {t : HeaderType} (ht : typeAt z off = some t) (hs : t.holdsScalar)
    (hrest : CompleteRecords z (off + recordSize z off) e) : CompleteRecords z off e
  | container {off w e : Nat} (k : Kind) (hopen : typeAt z off = some k.openType)
    (hlength : (lengthAt z off).toNat = (w + k.closeWidth - off) % 65536)
    (hbody : CompleteRecords z (off + k.openWidth) w) (hclose : typeAt z w = some k.closeType)
    (hrest : CompleteRecords z (w + k.closeWidth) e) : CompleteRecords z off e

variable {z : Zone} {off : Nat}

theorem typeAt_setKey {t : HeaderType} {key : UInt16} (h : Holds z.mem off (setKey t key))
    (hk : key ≤ 0xFFF) : typeAt z off = some t := by
  rw [typeAt, ((setKey_exact h).mpr hk).1, ofCode_code]

theorem lengthAt_holds {n : Nat} (h : Holds z.mem (off + 2) (cpuToLe16 (.ofNat n))) :
    (lengthAt z off).toNat = n % 65536 := field16_holds h

theorem holdsScalar_hdrType (v : Scalar) : v.hdrType.holdsScalar := by
  cases v <;> rfl

theorem entry_record {e : Entry} (h : ByteMemory.Fits z.mem off e.pattern)
    (hf : (Call.add e).Fits) :
    typeAt z off = some e.scalar.hdrType ∧ recordSize z off = e.width := by
  obtain ⟨hk, hl⟩ := hf
  rw [Entry.pattern, fits_append, fits_known, Entry.bytes, holds_append, setKey_length] at h
  obtain ⟨⟨hh, hp⟩, -⟩ := h
  have ht := typeAt_setKey hh hk
  refine ⟨ht, ?_⟩
  rw [recordSize, ht, Entry.width, Entry.bytes, List.length_append, setKey_length]
  cases hv : e.scalar with
  | str s =>
    rw [hv] at hp hl
    have hlen := lengthAt_holds (holds_append.mp hp).1
    simp only [Scalar.strLen] at hl
    simp only [Scalar.hdrType, Scalar.payload, Scalar.gap, List.length_append, cpuToLe16_length]
    omega
  | wchar s =>
    rw [hv] at hp hl
    have hlen := lengthAt_holds (holds_append.mp hp).1
    have hw := wcharBytes_length s
    simp only [Scalar.strLen, sizeofWchar] at hl hlen
    simp only [Scalar.hdrType, Scalar.payload, Scalar.gap, List.length_append, List.length_take,
      cpuToLe16_length]
    omega
  | _ => rfl

theorem closePattern_type {k : Kind} (h : ByteMemory.Fits z.mem off k.closePattern) :
    typeAt z off = some k.closeType := by
  cases k <;>
  · rw [typeAt, h.1]
    rfl

/-- The bytes of the contents of a container are complete records. -/
theorem completeRecords_enc {f : Items} (h : ByteMemory.Fits z.mem off (enc f))
    (hf : ∀ c ∈ calls f, c.Fits) : CompleteRecords z off (off + size f) := by
  induction f generalizing off with
  | nil => exact .nil off
  | leaf e rest ih =>
    rw [fits_leaf] at h
    rw [calls_leaf, List.forall_mem_cons] at hf
    obtain ⟨ht, hsize⟩ := entry_record h.1 hf.1
    rw [size, ← Nat.add_assoc]
    apply CompleteRecords.scalar ht (holdsScalar_hdrType _)
    rw [hsize]
    exact ih h.2 hf.2
  | node l body rest ihb ih =>
    obtain ⟨k, key⟩ := l
    obtain ⟨hh, hb, hc, hrest⟩ := fits_node.mp h
    rw [Kind.header, fits_append, fits_known, holds_append, setKey_length] at hh
    simp only [calls_node, List.forall_mem_cons, List.forall_mem_append] at hf
    obtain ⟨hk, hfb, -, hfr⟩ := hf
    have hlen := lengthAt_holds hh.1.2
    have hclosed := ih hrest hfr
    have hsize : off + size (.node (k, key) body rest) =
        off + k.openWidth + size body + k.closeWidth + size rest := by
      simp only [size, Nat.add_assoc]
    rw [hsize]
    refine .container k (typeAt_setKey hh.1.1 hk) ?_ (ihb hb hfb) (closePattern_type hc) hclosed
    rw [hlen]
    congr 1
    omega

end Records

section Levels

/-- Where the contents of a level end: at the next header, or at the end of the document. -/
def Bkv.levelEnd (h : Bkv) (i : Nat) : Nat :=
  if (i : Int) < h.deepOffset then h.mapOffset (i + 1 : Nat) else h.writeOffset

/-- A container of a kind is open at a level. -/
structure Level (h : Bkv) (i : Nat) (k : Kind) : Prop where
  value : h.deepValue i = k.char
  nibble : hdrNibble (h.ptr (h.mapOffset i)) = k.openType.code
  header : h.mapOffset i + k.openWidth ≤ h.levelEnd i
  contents : CompleteRecords (bkvGetHead h) (h.mapOffset i + k.openWidth) (h.levelEnd i)

structure OpenStack (h : Bkv) : Prop where
  root : 0 ≤ h.deepOffset → h.mapOffset 0 = 0
  increasing : ∀ i j : Nat, i < j → (j : Int) ≤ h.deepOffset → h.mapOffset i < h.mapOffset j
  below : ∀ i : Nat, (i : Int) ≤ h.deepOffset → h.mapOffset i < h.writeOffset
  level : ∀ i : Nat, (i : Int) ≤ h.deepOffset → ∃ k, Level h i k

variable {h : Bkv} {i j : Nat}

theorem Level.lt_levelEnd {k : Kind} (hl : Level h i k) : h.mapOffset i < h.levelEnd i := by
  have hw : 0 < k.openWidth := by cases k <;> decide
  have hle := hl.header
  omega

/-- Headers that follow one another have increasing offsets. -/
theorem mapOffset_lt (hl : ∀ i : Nat, (i : Int) ≤ h.deepOffset → ∃ k, Level h i k) (hij : i < j)
    (hj : (j : Int) ≤ h.deepOffset) : h.mapOffset i < h.mapOffset j := by
  induction j with
  | zero => exact absurd hij (Nat.not_lt_zero i)
  | succ j ih =>
    obtain ⟨k, hk⟩ := hl j (by omega)
    have hnext := hk.lt_levelEnd
    rw [Bkv.levelEnd, if_pos (by omega)] at hnext
    rcases Nat.lt_succ_iff_lt_or_eq.mp hij with hlt | rfl
    · exact Nat.lt_trans (ih hlt (by omega)) hnext
    · exact hnext

theorem mapOffset_below (hl : ∀ i : Nat, (i : Int) ≤ h.deepOffset → ∃ k, Level h i k)
    (hi : (i : Int) ≤ h.deepOffset) : h.mapOffset i < h.writeOffset := by
  obtain ⟨n, hn⟩ : ∃ n : Nat, h.deepOffset = n := ⟨h.deepOffset.toNat, by omega⟩
  obtain ⟨k, hk⟩ := hl n (by omega)
  have hlast := hk.lt_levelEnd
  rw [Bkv.levelEnd, if_neg (by omega)] at hlast
  rcases Nat.lt_or_ge i n with hlt | hge
  · exact Nat.lt_trans (mapOffset_lt hl hlt (by omega)) hlast
  · obtain rfl : i = n := by omega
    exact hlast

theorem OpenStack.of_levels (hroot : 0 ≤ h.deepOffset → h.mapOffset 0 = 0)
    (hl : ∀ i : Nat, (i : Int) ≤ h.deepOffset → ∃ k, Level h i k) : OpenStack h :=
  ⟨hroot, fun _ _ => mapOffset_lt hl, fun _ => mapOffset_below hl, hl⟩

end Levels

section Frames
variable {m : Mem} {mo : Cells Nat} {dv : Cells UInt8} {fr : Frame} {outer frs : List Frame}
  {e i : Nat}

theorem Laid.root (h : Laid m mo (fr :: outer) e) : mo 0 = 0 := by
  induction outer generalizing fr e with
  | nil => exact h.1
  | cons o outer ih => exact ih h.1

/-- Each level is that of a frame, which reaches up to the next one. -/
theorem Laid.frame (h : Laid m mo frs e) (hv : Stacked dv frs) (hi : i < frs.length) :
    ∃ fr ∈ frs, dv i = fr.kind.char ∧ ByteMemory.Fits m (mo i) fr.pattern ∧
      (if i + 1 < frs.length then mo (i + 1 : Nat) else e) = mo i + fr.pattern.length := by
  induction frs generalizing e with
  | nil => exact absurd hi (Nat.not_lt_zero i)
  | cons fr outer ih =>
    obtain ⟨ho, hfit, he⟩ := h
    rw [List.length_cons] at hi ⊢
    rcases Nat.lt_succ_iff_lt_or_eq.mp hi with hlt | rfl
    · obtain ⟨o, hmem, hchar, hpat, hend⟩ := ih ho hv.2 hlt
      refine ⟨o, List.mem_cons_of_mem fr hmem, hchar, hpat, ?_⟩
      rw [if_pos (by omega), ← hend]
      split
      · rfl
      · rw [show i + 1 = outer.length by omega]
    · refine ⟨fr, List.mem_cons_self, hv.1, hfit, ?_⟩
      rw [if_neg (by omega)]
      exact he

theorem frame_pattern_level {z : Zone} {off : Nat} (h : ByteMemory.Fits z.mem off fr.pattern)
    (hf : ∀ c ∈ fr.calls, c.Fits) : hdrNibble (z.mem off) = fr.kind.openType.code ∧
      CompleteRecords z (off + fr.kind.openWidth) (off + fr.pattern.length) := by
  rw [Frame.calls, List.forall_mem_cons] at hf
  have hw : 2 ≤ fr.kind.openWidth := by cases fr.kind <;> decide
  rw [frame_pattern_length, ← Nat.add_assoc]
  rw [Frame.pattern, fits_append, fits_append, fits_known, known_length, setKey_length,
    blank_length] at h
  obtain ⟨hkey, -, hbody⟩ := h
  refine ⟨((setKey_exact hkey).mpr hf.1).1, completeRecords_enc ?_ hf.2⟩
  rwa [Nat.add_assoc, Nat.add_sub_cancel' hw] at hbody

end Frames

/-- In every state that accepted calls reach, the stack of open containers says where the bytes have
their open headers, with complete records between them. -/
theorem open_stack (env : Env) (h₀ h : Bkv) (cs : List Call) (hf : FreshRam env h₀)
    (hr : runOk env h₀ cs = some h) (hfits : ∀ c ∈ cs, c.Fits) : OpenStack h := by
  obtain ⟨p, hp, hs, -⟩ := (freshRam_sim hf).runOk env hr
  obtain ⟨-, hcalls⟩ := track_spells hp
  cases p with
  | start =>
    have hd := hs.controls.2
    exact .of_levels (by omega) (by intro i hi; omega)
  | complete key body =>
    have hd := hs.controls.2
    exact .of_levels (by omega) (by intro i hi; omega)
  | inside fr outer =>
    obtain ⟨-, hd, hv⟩ := hs.controls
    apply OpenStack.of_levels
    · intro _
      exact Laid.root hs.laid
    · intro i hi
      obtain ⟨o, hmem, hchar, hpat, hend⟩ :=
        Laid.frame hs.laid hv (show i < (fr :: outer).length by simp; omega)
      have hcs : ∀ c ∈ o.calls, c.Fits := by
        intro c hc
        apply hfits
        rw [← hcalls, Position.calls, List.mem_flatMap]
        exact ⟨o, List.mem_reverse.mpr hmem, hc⟩
      obtain ⟨hnibble, hrecords⟩ := frame_pattern_level (z := bkvGetHead h) hpat hcs
      have hlevel : h.levelEnd i = h.mapOffset i + o.pattern.length := by
        rw [← hend, Bkv.levelEnd, hd, List.length_cons]
        split <;> split <;> first | rfl | omega
      refine ⟨o.kind, hchar, hnibble, ?_, ?_⟩
      · rw [hlevel, frame_pattern_length]
        omega
      · rw [hlevel]
        exact hrecords

/-- An array is closed before the second map is opened in its slot. -/
theorem open_stack_reopened : ∃ h, runOk calmEnv ramHandle [.opening .map 1, .opening .array 2,
      .add (.elem (.u16 7)), .closing .array, .add (.keyed 3 (.str [104, 105])),
      .opening .map 4] = some h ∧ OpenStack h :=
  ⟨_, rfl, open_stack calmEnv ramHandle _ [.opening .map 1, .opening .array 2,
    .add (.elem (.u16 7)), .closing .array, .add (.keyed 3 (.str [104, 105])), .opening .map 4]
    ramHandle_fresh rfl (by simp [Call.Fits]; decide)⟩

end Wtools
