import Wtools.Search
import Wtools.Splice

/-!
# Elements of an array

`bkv_val_get2` without a path, on an array. The number callbacks store one element each and end the
walk with the last one that was asked for. The string and boolean callbacks look at the path all the
same, and the close of the array does not end the walk.
-/

namespace Wtools
open ByteMemory Forest

/-- A container of a document, with the calls in front of it. -/
inductive Within : Items → List Call → Items → Prop
  | here (l : Kind × UInt16) (body rest : Items) : Within (.node l body rest) [] (.node l body .nil)
  | inside (l : Kind × UInt16) {body : Items} (rest : Items) {pre : List Call} {t : Items}
      (h : Within body pre t) : Within (.node l body rest) (.opening l.1 l.2 :: pre) t
  | behindEntry (e : Entry) {rest : Items} {pre : List Call} {t : Items} (h : Within rest pre t) :
      Within (.leaf e rest) (.add e :: pre) t
  | behind (l : Kind × UInt16) (body : Items) {rest : Items} {pre : List Call} {t : Items}
      (h : Within rest pre t) : Within (.node l body rest) (calls (.node l body .nil) ++ pre) t

section Within
variable {f t : Items} {pre : List Call} {m : Mem} {off : Nat}

theorem Within.size_le (h : Within f pre t) : widths pre + size t ≤ size f := by
  induction h with
  | here l body rest => simp [size]
  | inside l rest h ih =>
    rw [widths_cons, Call.width, size]
    omega
  | behindEntry e h ih =>
    rw [widths_cons, Call.width, size]
    omega
  | behind l body h ih =>
    rw [widths_append, widths_calls, size, size, size]
    omega

theorem Within.fits (h : Within f pre t) (hfit : ByteMemory.Fits m off (enc f)) :
    ByteMemory.Fits m (off + widths pre) (enc t) := by
  induction h generalizing off with
  | here l body rest =>
    simp only [enc, List.append_nil, fits_append] at hfit ⊢
    exact ⟨hfit.1, hfit.2.1, hfit.2.2.1⟩
  | inside l rest h ih =>
    simp only [enc, fits_append, header_length] at hfit
    rw [widths_cons, Call.width, ← Nat.add_assoc]
    exact ih hfit.2.1
  | behindEntry e h ih =>
    rw [fits_leaf] at hfit
    rw [widths_cons, Call.width, ← Nat.add_assoc]
    exact ih hfit.2
  | behind l body h ih =>
    simp only [enc, fits_append, header_length, enc_length, closePattern_length] at hfit
    rw [widths_append, widths_calls, size, size, Nat.add_zero, ← Nat.add_assoc, ← Nat.add_assoc,
      ← Nat.add_assoc]
    exact ih hfit.2.2.2

theorem Within.split (h : Within f pre t) : ∃ post, calls f = pre ++ (calls t ++ post) := by
  induction h with
  | here l body rest =>
    obtain ⟨k, key⟩ := l
    exact ⟨calls rest, by simp⟩
  | inside l rest h ih =>
    obtain ⟨k, key⟩ := l
    obtain ⟨post, hpost⟩ := ih
    exact ⟨post ++ .closing k :: calls rest, by simp [hpost]⟩
  | behindEntry e h ih =>
    obtain ⟨post, hpost⟩ := ih
    exact ⟨post, by simp [hpost]⟩
  | behind l body h ih =>
    obtain ⟨k, key⟩ := l
    obtain ⟨post, hpost⟩ := ih
    exact ⟨post, by simp [hpost]⟩

end Within

/-- The contents of an array of scalars. -/
def scalars : List Elem → Items
  | [] => .nil
  | e :: es => .leaf (.elem e) (scalars es)

def Elem.isNumber : Elem → Bool
  | .u16 _ | .u64 _ | .float _ => true
  | .boolean _ | .str _ => false

/-- An output entry has the kind and the value of an element. -/
def Elem.Given (z : Zone) : Elem → BkvVal → Prop
  | .u16 x, v => v.type = .int16 ∧ v.u = .int16 x
  | .u64 x, v => v.type = .int64 ∧ v.u = .int64 x
  | .float x, v => v.type = .float ∧ v.u = .f x
  | .boolean b, v => v.type = .boolean ∧ v.u = .b b
  | .str s, v => v.type = .string ∧ ∃ p, v.u = .string p s.length ∧ z.slice? p s.length = some s

/-- The output entries from `i` on are the first `n` of the elements, the others are as before. -/
structure Collected (z : Zone) (es : List Elem) (i : Int) (n : Nat) (val val' : Cells BkvVal) :
    Prop where
  given : ∀ (j : Nat) (hj : j < es.length), j < n → es[j].Given z (val' (i + j))
  kept : ∀ j : Int, (j < i ∨ i + min n es.length ≤ j) → val' j = val j

/-- An extraction into an array of results with no keys to look for. -/
def collecting (nb_val : Int) (val : Cells BkvVal) (i : Int) (valIsSet : Bool) : GetCtx :=
  ⟨none, nb_val, val, i, false, -1, valIsSet⟩

theorem elem_key (e : Elem) : (Entry.elem e).key ≤ 0xFFF := by
  change bkvArrayKey ≤ 0xFFF
  decide

section Turn
variable {z : Zone} {off : Nat} {deep i nb_val : Int} {val : Cells BkvVal} {e : Elem} {set : Bool}

theorem turn_number (deep i nb_val : Int) (val : Cells BkvVal) (set : Bool) (he : e.isNumber)
    (h : ByteMemory.Fits z.mem off (Entry.elem e).pattern)
    (hz : off + (Entry.elem e).width ≤ z.size) :
    ∃ v, e.Given z v ∧ turn z valGetCallbacks off deep (collecting nb_val val i set) =
      .ok (.go (if i + 1 ≥ nb_val then actionStopLoop else actionNone)
        (off + (Entry.elem e).width) deep (collecting nb_val (val.set i v) (i + 1) true)) := by
  have hfits : (Call.add (.elem e)).Fits := by
    cases e with
    | boolean b => cases he
    | str s => cases he
    | _ => exact ⟨elem_key _, Nat.zero_le _⟩
  rw [turn_entry h hz hfits]
  cases e with
  | u16 x => exact ⟨{ val i with type := .int16, u := .int16 x }, ⟨rfl, rfl⟩, rfl⟩
  | u64 x => exact ⟨{ val i with type := .int64, u := .int64 x }, ⟨rfl, rfl⟩, rfl⟩
  | float x => exact ⟨{ val i with type := .float, u := .f x }, ⟨rfl, rfl⟩, rfl⟩
  | boolean b => cases he
  | str s => cases he

/-- The record of a string of any length. -/
theorem turn_string {s : List UInt8} {σ : Type} {cb : Callbacks σ} {p_data : σ}
    (h : ByteMemory.Fits z.mem off (Entry.elem (.str s)).pattern)
    (hz : off + (Entry.elem (.str s)).width ≤ z.size) :
    turn z cb off deep p_data = cb (.str (off + 4) bkvArrayKey (off + 4) (s.length % 2 ^ 16)) p_data >>=
      fun p => .ok (.go p.1 (off + 4 + s.length % 2 ^ 16) deep p.2) := by
  rw [Entry.pattern, fits_append, fits_known, Entry.bytes, holds_append, setKey_length] at h
  obtain ⟨⟨hh, hp⟩, -⟩ := h
  simp only [Entry.width, Entry.bytes, Entry.scalar, Elem.scalar, Scalar.payload, List.length_append,
    setKey_length, cpuToLe16_length] at hz
  simp only [Entry.scalar, Elem.scalar, Scalar.payload, holds_append] at hp
  obtain ⟨b0, b1, h0, h1, ht, hkey⟩ := read_header hh (by omega)
    (elem_key (.str s))
  simp only [turn, h0, h1, ok_bind, ht, hkey]
  simp only [Entry.scalar, Elem.scalar, Scalar.hdrType, hdrSize, read16_holds hp.1 (by omega), ok_bind,
    UInt16.toNat_ofNat', pure_ok]
  rfl

/-- An element that is not a number has the path looked at, which is not there. -/
theorem turn_unread (he : e.isNumber = false)
    (h : ByteMemory.Fits z.mem off (Entry.elem e).pattern)
    (hz : off + (Entry.elem e).width ≤ z.size) :
    turn z valGetCallbacks off deep (collecting nb_val val i set) = .error (.keys (-1)) := by
  cases e with
  | boolean b =>
    rw [turn_entry h hz ⟨elem_key _, Nat.zero_le _⟩]
    rfl
  | str s =>
    rw [turn_string h hz]
    rfl
  | _ => cases he

end Turn

section Loop
variable {z : Zone} {base off n : Nat} {deep i nb_val : Int} {val : Cells BkvVal} {es : List Elem}
  {set : Bool}

theorem loop_number (deep i nb_val : Int) (val : Cells BkvVal) (set : Bool) {e : Elem}
    (he : e.isNumber)
    (h : ByteMemory.Fits z.mem off (Entry.elem e).pattern) (hz : off + (Entry.elem e).width ≤ z.size)
    (hoff : base < off) (hbase : z.size < base + 2 ^ 31) :
    ∃ v, e.Given z v ∧ loopAt z valGetCallbacks base off deep (collecting nb_val val i set) =
      if i + 1 ≥ nb_val then
        .ok (bkvOk, off + (Entry.elem e).width, collecting nb_val (val.set i v) (i + 1) true)
      else loopAt z valGetCallbacks base (off + (Entry.elem e).width) deep
        (collecting nb_val (val.set i v) (i + 1) true) := by
  obtain ⟨v, hv, ht⟩ := turn_number deep i nb_val val set he h hz
  refine ⟨v, hv, ?_⟩
  have hb : beyond base (off + (Entry.elem e).width) := beyond_of_lt base (by omega) (by omega)
  rw [loopAt_eq, ht, ok_bind]
  by_cases hn : i + 1 ≥ nb_val
  · simp [hn, actionStopLoop]
  · simp [hn, actionNone, hb]

theorem Collected.cons {e : Elem} {v : BkvVal} {val' : Cells BkvVal} (hv : e.Given z v)
    (h : Collected z es (i + 1) n (val.set i v) val') :
    Collected z (e :: es) i (n + 1) val val' where
  given := by
    intro j hj hn
    cases j with
    | zero =>
      have hkept := h.kept i (Or.inl (by omega))
      rw [Cells.set_self] at hkept
      simpa [hkept] using hv
    | succ j =>
      have hgiven := h.given j (Nat.lt_of_succ_lt_succ hj) (Nat.lt_of_succ_lt_succ hn)
      rw [List.getElem_cons_succ]
      rwa [Int.add_assoc, Int.add_comm 1] at hgiven
  kept := by
    intro j hj
    rw [List.length_cons] at hj
    rw [h.kept j (by omega), Cells.set_of_ne _ _ (by omega)]

/-- The loop stops with the last element asked for. -/
theorem loop_collects (deep : Int) (val : Cells BkvVal) (set : Bool)
    (h : ByteMemory.Fits z.mem off (enc (scalars es))) (hz : off + size (scalars es) ≤ z.size)
    (hoff : base < off) (hbase : z.size < base + 2 ^ 31)
    (hn : 1 ≤ n) (hi : i + n = nb_val) (hlen : n ≤ es.length) (hes : ∀ e ∈ es.take n, e.isNumber) :
    ∃ p val', loopAt z valGetCallbacks base off deep (collecting nb_val val i set) =
      .ok (bkvOk, p, collecting nb_val val' nb_val true) ∧ Collected z es i n val val' := by
  induction es generalizing off n i val set with
  | nil =>
    rw [List.length_nil] at hlen
    omega
  | cons e es ih =>
    obtain ⟨n, rfl⟩ : ∃ k, n = k + 1 := ⟨n - 1, by omega⟩
    rw [List.take_succ_cons, List.forall_mem_cons] at hes
    rw [scalars, enc, fits_append, entry_pattern_length] at h
    rw [scalars, size] at hz
    have hw := width_pos (.elem e)
    obtain ⟨v, hv, hloop⟩ := loop_number deep i nb_val val set hes.1 h.1 (by omega) hoff hbase
    rw [hloop]
    by_cases hlast : n = 0
    · subst hlast
      rw [if_pos (by omega)]
      have hend : i + 1 = nb_val := by omega
      rw [hend]
      exact ⟨_, _, rfl, .cons hv ⟨fun j hj hn => absurd hn (Nat.not_lt_zero j), fun j hj => rfl⟩⟩
    · rw [if_neg (by omega)]
      obtain ⟨p, val', hrest, hcol⟩ := ih (n := n) (i := i + 1) (val.set i v) true h.2 (by omega)
        (by omega) (by omega)
        (by omega) (Nat.le_of_succ_le_succ hlen) hes.2
      exact ⟨p, val', hrest, hcol.cons hv⟩

/-- An element that is not a number faults before the last element asked for is reached. -/
theorem loop_unread (h : ByteMemory.Fits z.mem off (enc (scalars es)))
    (hz : off + size (scalars es) ≤ z.size) (hoff : base < off) (hbase : z.size < base + 2 ^ 31)
    (hi : i + n = nb_val) (hes : ∃ e ∈ es.take n, e.isNumber = false) :
    loopAt z valGetCallbacks base off deep (collecting nb_val val i set) = .error (.keys (-1)) := by
  induction es generalizing off n i val set with
  | nil => simp at hes
  | cons e es ih =>
    cases n with
    | zero => simp at hes
    | succ n =>
      rw [scalars, enc, fits_append, entry_pattern_length] at h
      rw [scalars, size] at hz
      have hw := width_pos (.elem e)
      cases he : e.isNumber with
      | false =>
        rw [loopAt_eq, turn_unread he h.1 (by omega)]
        rfl
      | true =>
        have hrest : ∃ e ∈ es.take n, e.isNumber = false := by
          obtain ⟨e', he', hf⟩ := hes
          rw [List.take_succ_cons, List.mem_cons] at he'
          rcases he' with rfl | he'
          · rw [he] at hf
            cases hf
          · exact ⟨e', he', hf⟩
        have hpos : 0 < n := by
          rcases Nat.eq_zero_or_pos n with rfl | hn
          · simp at hrest
          · exact hn
        obtain ⟨v, -, hloop⟩ := loop_number deep i nb_val val set he h.1 (by omega) hoff hbase
        rw [hloop, if_neg (by omega)]
        exact ih (n := n) (i := i + 1) h.2 (by omega) (by omega) (by omega) hrest

/-- When more elements are asked for than there are, the loop goes on behind the array. -/
theorem loop_overruns (h : ByteMemory.Fits z.mem off (enc (scalars es)))
    (hclose : ByteMemory.Fits z.mem (off + size (scalars es)) Kind.array.closePattern)
    (hz : off + size (scalars es) + Kind.array.closeWidth = z.size) (hoff : base < off)
    (hbase : z.size < base + 2 ^ 31) (hi : i + n = nb_val) (hlen : es.length < n)
    (hes : ∀ e ∈ es, e.isNumber) :
    loopAt z valGetCallbacks base off deep (collecting nb_val val i set) =
      .error (.read z.size) := by
  induction es generalizing off n i val set with
  | nil =>
    have hb : beyond base z.size := by
      rw [← hz]
      exact beyond_of_lt base (by rw [Kind.closeWidth]; omega) (by omega)
    have hend : ∀ deep s, loopAt z valGetCallbacks base z.size deep s = .error (.read z.size) := by
      intro deep s
      rw [loopAt_eq, turn, readByte, Zone.byte?_of_ge (Nat.le_refl _)]
      rfl
    rw [scalars, size, Nat.add_zero] at hclose hz
    rw [loopAt_eq, turn_close hclose (by omega), hz]
    simp [closeEvent, valGetCallbacks, actionNone, hb, hend]
  | cons e es ih =>
    rw [List.forall_mem_cons] at hes
    rw [scalars, enc, fits_append, entry_pattern_length] at h
    rw [scalars, size, ← Nat.add_assoc] at hz hclose
    rw [List.length_cons] at hlen
    have hw := width_pos (.elem e)
    obtain ⟨v, -, hloop⟩ := loop_number deep i nb_val val set hes.1 h.1 (by omega) hoff hbase
    rw [hloop, if_neg (by omega)]
    exact ih (n := n - 1) (i := i + 1) h.2 hclose hz (by omega) (by omega) (by omega) hes.2

end Loop

/-- The array with these elements. -/
def arrayOf (key : UInt16) (es : List Elem) : Items := .node (.array, key) (scalars es) .nil

/-- The extraction of elements of the array at `off`: whatever part of the buffer may be read, as
long as it has that array. -/
def Extracts (h : Bkv) (off : Nat) (key : UInt16) (es : List Elem) (n : Nat) : Prop :=
  ∀ (v : BkvVal) (val : Cells BkvVal) (limit : Nat), v.type = .array → v.priv = off →
    off + size (arrayOf key es) ≤ limit → limit ≤ h.writeOffset →
    ∃ r val', bkvValGet2 ⟨h.ptr, limit⟩ v none n val = .ok (r, val') ∧
      Collected ⟨h.ptr, limit⟩ es 0 n val val' ∧ (r = bkvOk ↔ es ≠ [])

section Array
variable {z : Zone} {off n : Nat} {key : UInt16} {es : List Elem} {v : BkvVal} {val : Cells BkvVal}

/-- The extraction is the loop behind the header of the array. -/
theorem get2_array (h : ByteMemory.Fits z.mem off (enc (arrayOf key es)))
    (hz : off + size (arrayOf key es) ≤ z.size) (hbase : z.size < off + 2 ^ 31) (hk : key ≤ 0xFFF)
    (ht : v.type = .array) (hv : v.priv = off) :
    bkvValGet2 z v none n val =
      (loopAt z valGetCallbacks off (off + 6) 1 (collecting n val 0 false)).map fun p =>
        (if p.2.2.valIsSet then bkvOk else bkvInvArg, p.2.2.val) := by
  simp only [arrayOf, enc, fits_append] at h
  simp only [arrayOf, size, Kind.openWidth, Kind.closeWidth] at hz
  have hb : beyond off (off + 6) := beyond_of_lt off (by omega) (by omega)
  have hkept : ∀ r s', valGetCallbacks (.mapOpen off key) (collecting n val 0 false) = .ok (r, s') →
      r &&& actionGotoEndMap = 0 := by
    intro r s' hcb
    cases hcb
    rfl
  have hopen : turn z valGetCallbacks off 0 (collecting n val 0 false) =
      .ok (.go actionNone (off + 6) 1 (collecting n val 0 false)) := by
    rw [turn_open h.1 (by simp only [Kind.openWidth]; omega) hk (by simp only [Kind.openWidth]; omega)
      (.inr hkept)]
    rfl
  have hforeach : valForeach z v valGetCallbacks (collecting n val 0 false) =
      (loopAt z valGetCallbacks off (off + 6) 1 (collecting n val 0 false)).map fun p =>
        (p.1, p.2.2) := by
    rw [valForeach, valForeachPtr_eq, hv, loopAt_eq, hopen]
    simp only [ok_bind, hb, actionNone, UInt32.zero_and, true_and, if_true]
    cases loopAt z valGetCallbacks off (off + 6) 1 (collecting n val 0 false) <;> rfl
  rw [bkvValGet2, if_neg (by simp [ht])]
  change valForeach z v valGetCallbacks (collecting n val 0 false) >>= _ = _
  rw [hforeach]
  cases loopAt z valGetCallbacks off (off + 6) 1 (collecting n val 0 false) <;> rfl

theorem array_inside (h : ByteMemory.Fits z.mem off (enc (arrayOf key es))) :
    ByteMemory.Fits z.mem (off + 6) (enc (scalars es)) ∧
      ByteMemory.Fits z.mem (off + 6 + size (scalars es)) Kind.array.closePattern := by
  simp only [arrayOf, enc, fits_append, header_length, enc_length] at h
  exact ⟨h.2.1, h.2.2.1⟩

end Array

/-- The elements of an array in a closed document are extracted exactly when no more of them are
asked for than there are, and all that are asked for are numbers. -/
theorem extracts_iff (h : Bkv) (root : UInt16) (body : Items)
    (hd : HoldsDocument h (calls (.node (.map, root) body .nil)))
    (hsize : h.writeOffset < 2 ^ 31) (pre : List Call) (key : UInt16) (es : List Elem)
    (harr : Within (.node (.map, root) body .nil) pre (arrayOf key es)) (hkey : key ≤ 0xFFF)
    (n : Nat) (hn : 1 ≤ n) :
    Extracts h (widths pre) key es n ↔ n ≤ es.length ∧ ∀ e ∈ es.take n, e.isNumber := by
  obtain ⟨_, _, -, hcalls, hfit, hw, -⟩ := hd
  rw [← calls_injective hcalls] at hfit hw
  have hfits := harr.fits hfit
  rw [Nat.zero_add] at hfits
  have hinside : widths pre + size (arrayOf key es) ≤ h.writeOffset := hw ▸ harr.size_le
  have hwidth : size (arrayOf key es) = 6 + size (scalars es) + 5 := rfl
  constructor
  · intro hx
    obtain ⟨v, ht, hv⟩ : ∃ v : BkvVal, v.type = .array ∧ v.priv = widths pre :=
      ⟨⟨.array, bkvKeyInvalid, .unset, widths pre, 0, 0⟩, rfl, rfl⟩
    obtain ⟨r, val', hget, -, -⟩ := hx v (fun _ => v) _ ht hv (Nat.le_refl _) hinside
    rw [get2_array hfits (Nat.le_refl _) (by dsimp only; omega) hkey ht hv] at hget
    obtain ⟨hbody, hclose⟩ := array_inside
      (z := ⟨h.ptr, widths pre + size (arrayOf key es)⟩) hfits
    have hnum : ∀ e ∈ es.take n, e.isNumber := by
      intro e he
      cases hne : e.isNumber with
      | true => rfl
      | false =>
        rw [loop_unread hbody (by dsimp only; omega) (by omega) (by dsimp only; omega)
          (Int.zero_add _) ⟨e, he, hne⟩] at hget
        cases hget
    refine ⟨?_, hnum⟩
    rcases Nat.lt_or_ge es.length n with hlt | hle
    · rw [List.take_of_length_le (Nat.le_of_lt hlt)] at hnum
      rw [loop_overruns hbody hclose (by dsimp only [Kind.closeWidth]; omega) (by omega)
        (by dsimp only; omega) (Int.zero_add _) hlt hnum] at hget
      cases hget
    · exact hle
  · rintro ⟨hlen, hnum⟩ v val limit ht hv hlimit hend
    obtain ⟨hbody, -⟩ := array_inside (z := ⟨h.ptr, limit⟩) hfits
    obtain ⟨p, val', hloop, hcol⟩ := loop_collects 1 val false hbody (by dsimp only; omega)
      (Nat.lt_add_of_pos_right (by decide)) (by dsimp only; omega) hn (Int.zero_add _) hlen hnum
    refine ⟨bkvOk, val', ?_, hcol, ?_⟩
    · rw [get2_array hfits hlimit (by dsimp only; omega) hkey ht hv, hloop]
      rfl
    · refine iff_of_true rfl ?_
      rintro rfl
      rw [List.length_nil] at hlen
      omega

theorem extracts_first : ∃ h, runOk calmEnv ramHandle
      (calls (.node (.map, 0) (arrayOf 1 [.u16 5, .boolean true]) .nil)) = some h ∧
    (Extracts h 4 1 [.u16 5, .boolean true] 1 ↔
      1 ≤ [Elem.u16 5, .boolean true].length ∧
        ∀ e ∈ [Elem.u16 5, .boolean true].take 1, e.isNumber) :=
  ⟨_, rfl, extracts_iff _ 0 (arrayOf 1 [.u16 5, .boolean true])
    (runOk_holds ramHandle_fresh rfl rfl) (by decide) [.opening .map 0] 1 [.u16 5, .boolean true]
    (.inside (.map, 0) .nil (.here _ _ _)) (by decide) 1 (by decide)⟩

/-- A boolean in an array has the missing path read. When one element too many is asked for, the
member behind the array is taken for it. -/
theorem boolean_reads_path :
    (∃ h, runOk calmEnv ramHandle (calls (.node (.map, 0) (arrayOf 1 [.boolean true]) .nil)) =
        some h ∧ ¬Extracts h 4 1 [.boolean true] 1 ∧
      bkvValGet2 (bkvGetHead h) ⟨.array, 1, .unset, 4, 0, 0⟩ none 1 (fun _ => bkvValInitValue) =
        .error (.keys (-1))) ∧
    ∃ h val', runOk calmEnv ramHandle (calls (.node (.map, 0) (.node (.array, 1)
        (scalars [.u16 5]) (.leaf (.keyed 2 (.u16 9)) .nil)) .nil)) = some h ∧
      bkvValGet2 (bkvGetHead h) ⟨.array, 1, .unset, 4, 0, 0⟩ none 2 (fun _ => bkvValInitValue) =
        .ok (bkvOk, val') ∧ (val' 1).u = .int16 9 := by
  refine ⟨⟨_, rfl, ?_, rfl⟩, ⟨_, _, rfl, rfl, rfl⟩⟩
  intro hx
  obtain ⟨r, val', hget, -⟩ := hx ⟨.array, 1, .unset, 4, 0, 0⟩ (fun _ => bkvValInitValue) 18 rfl rfl
    (by decide) (by decide)
  cases hget

end Wtools
