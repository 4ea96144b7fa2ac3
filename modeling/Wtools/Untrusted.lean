import Wtools.Decode

/-!
# Reading an untrusted buffer

The decoding loop has no end pointer: it goes where the bytes lead it. From the bytes alone we say
at which records a traversal can arrive, whatever the callbacks answer; the traversal stays inside
the buffer for all callbacks exactly when each of these records lies inside.
-/

namespace Wtools
open ByteMemory

section Records

def keyAt (z : Zone) (off : Nat) : UInt16 := hdrKey (z.mem off) (z.mem (off + 1))

def typeAt (z : Zone) (off : Nat) : Option HeaderType := HeaderType.ofCode (hdrNibble (z.mem off))

/-- The length stored in the header of a map, or in front of the characters of a string. -/
def lengthAt (z : Zone) (off : Nat) : UInt16 := le16ToCpu (z.mem (off + 2)) (z.mem (off + 3))

/-- What has to be there of a record: its header with all its fields, and its value. -/
def recordSize (z : Zone) (off : Nat) : Nat :=
  match typeAt z off with
  | some .mapOpen => 4
  | some .arrayOpen => 6
  | some .mapClose | some .arrayClose | none => 2
  | some .int16 => 4
  | some .int32 | some .float => 6
  | some .int64 | some .double => 10
  | some .string => 4 + (lengthAt z off).toNat
  | some .boolean => 3

/-- Where a traversal can go on after a record: behind it, or from the header of a map also by the
length stored there. Nothing follows an unknown record and the close that brings the depth to 0. -/
def Leads (z : Zone) (off : Nat) (deep : Int) (off' : Nat) (deep' : Int) : Prop :=
  match typeAt z off with
  | some .mapOpen => off' = off + 4 ∧ deep' = deep + 1 ∨
      lengthAt z off ≠ 0 ∧ off' = off + (lengthAt z off).toNat ∧ deep' = deep
  | some .mapClose => deep - 1 ≠ 0 ∧ off' = off + 2 ∧ deep' = deep - 1
  | some .arrayOpen => off' = off + 6 ∧ deep' = deep + 1
  | some .arrayClose => off' = off + 5 ∧ deep' = deep - 1
  | some _ => off' = off + recordSize z off ∧ deep' = deep
  | none => False

/-- The records at which a traversal from offset 0 can arrive. -/
inductive Reaches (z : Zone) : Nat → Int → Prop
  | start : Reaches z 0 0
  | step {off off' : Nat} {deep deep' : Int} (h : Reaches z off deep) (hl : Leads z off deep off' deep')
      (hb : beyond 0 off') : Reaches z off' deep'

/-- Every record at which a traversal can arrive lies in the buffer. -/
def WellDelimited (z : Zone) : Prop := ∀ off deep, Reaches z off deep → off + recordSize z off ≤ z.size

end Records

section Property

/-- A string that is handed to a callback lies in the buffer. -/
def Event.inside (z : Zone) : Event → Bool
  | .str _ _ value len => value + len ≤ z.size
  | _ => true

variable {σ : Type}

/-- Callbacks that fault on a string outside the buffer, and else answer as `f` says. -/
def guarded (z : Zone) (f : Event → σ → UInt32 × σ) : Callbacks σ := fun e s =>
  if e.inside z then .ok (f e s) else .error (.read z.size)

/-- `bkv_val_init` at the head and `bkv_val_foreach` with any callbacks make no read outside the
buffer, and hand out no string outside it. -/
def ReadsInside (z : Zone) : Prop :=
  ∀ (p_val : BkvVal) (σ : Type) (f : Event → σ → UInt32 × σ) (s : σ), ∃ r v l_ret s',
    bkvValInit z p_val 0 = .ok (r, v) ∧ bkvValForeach z v (guarded z f) s = .ok (l_ret, s')

end Property

section Turn
variable {z : Zone} {off i : Nat} {deep : Int}

theorem read16_of_le (h : i + 2 ≤ z.size) :
    read16 z i = .ok (le16ToCpu (z.mem i) (z.mem (i + 1))) := by
  rw [read16, readByte_of_lt (by omega), readByte_of_lt (by omega)]
  rfl

theorem read32_of_le (h : i + 4 ≤ z.size) : read32 z i =
    .ok (le32ToCpu (z.mem i) (z.mem (i + 1)) (z.mem (i + 2)) (z.mem (i + 3))) := by
  rw [read32, readByte_of_lt (by omega), readByte_of_lt (by omega), readByte_of_lt (by omega),
    readByte_of_lt (by omega)]
  rfl

theorem readFloat_of_le (h : i + 4 ≤ z.size) : readFloat z i =
    .ok (lefToCpu (z.mem i) (z.mem (i + 1)) (z.mem (i + 2)) (z.mem (i + 3))) := by
  rw [readFloat, readByte_of_lt (by omega), readByte_of_lt (by omega), readByte_of_lt (by omega),
    readByte_of_lt (by omega)]
  rfl

theorem read64With_of_le (g : UInt8 → UInt8 → UInt8 → UInt8 → UInt8 → UInt8 → UInt8 → UInt8 → UInt64)
    (h : i + 8 ≤ z.size) : read64With g z i =
      .ok (g (z.mem i) (z.mem (i + 1)) (z.mem (i + 2)) (z.mem (i + 3)) (z.mem (i + 4)) (z.mem (i + 5))
        (z.mem (i + 6)) (z.mem (i + 7))) := by
  rw [read64With, readByte_of_lt (by omega), readByte_of_lt (by omega), readByte_of_lt (by omega),
    readByte_of_lt (by omega), readByte_of_lt (by omega), readByte_of_lt (by omega),
    readByte_of_lt (by omega), readByte_of_lt (by omega)]
  rfl

/-- The invocation for a record of a type. -/
def eventAt (z : Zone) (off : Nat) (deep : Int) : HeaderType → Event
  | .mapOpen => .mapOpen off (keyAt z off)
  | .mapClose => .mapClose (keyAt z off)
  | .arrayOpen => .arrayOpen off (le16ToCpu (z.mem (off + 4)) (z.mem (off + 5))) (keyAt z off)
  | .arrayClose => .arrayClose
  | .int16 => .uint16 off deep (keyAt z off) (lengthAt z off)
  | .int32 => .uint32 off deep (keyAt z off)
      (le32ToCpu (z.mem (off + 2)) (z.mem (off + 3)) (z.mem (off + 4)) (z.mem (off + 5)))
  | .int64 => .uint64 off deep (keyAt z off)
      (leU64ToCpu (z.mem (off + 2)) (z.mem (off + 3)) (z.mem (off + 4)) (z.mem (off + 5))
        (z.mem (off + 6)) (z.mem (off + 7)) (z.mem (off + 8)) (z.mem (off + 9)))
  | .string => .str (off + 4) (keyAt z off) (off + 4) (lengthAt z off).toNat
  | .float => .float (off + 2) (keyAt z off)
      (lefToCpu (z.mem (off + 2)) (z.mem (off + 3)) (z.mem (off + 4)) (z.mem (off + 5)))
  | .double => .double (off + 2) (keyAt z off)
      (leDoubleToCpu (z.mem (off + 2)) (z.mem (off + 3)) (z.mem (off + 4)) (z.mem (off + 5))
        (z.mem (off + 6)) (z.mem (off + 7)) (z.mem (off + 8)) (z.mem (off + 9)))
  | .boolean => .boolean (off + 2) (keyAt z off) (z.mem (off + 2) ≠ 0)

variable {σ : Type}

/-- Where the answer `r` to a record of a type leads. -/
def goes (z : Zone) (off : Nat) (deep : Int) (r : UInt32) (s : σ) : HeaderType → Turn σ
  | .mapOpen =>
    if r &&& actionGotoEndMap ≠ 0 then
      if lengthAt z off = 0 then .quit s else .go r (off + (lengthAt z off).toNat) deep s
    else .go r (off + 4) (deep + 1) s
  | .mapClose => .go (if deep - 1 = 0 then actionStopLoop else r) (off + 2) (deep - 1) s
  | .arrayOpen => .go r (off + 6) (deep + 1) s
  | .arrayClose => .go r (off + 5) (deep - 1) s
  | _ => .go r (off + recordSize z off) deep s

theorem two_le_recordSize (z : Zone) (off : Nat) : 2 ≤ recordSize z off := by
  unfold recordSize
  split <;> omega

theorem turn_record (cb : Callbacks σ) (deep : Int) {t : HeaderType} (ht : typeAt z off = some t)
    (hin : off + recordSize z off ≤ z.size) (s : σ) : turn z cb off deep s =
      cb (eventAt z off deep t) s >>= fun p => .ok (goes z off deep p.1 p.2 t) := by
  have h2 : off + 2 ≤ z.size := Nat.le_trans (Nat.add_le_add_left (two_le_recordSize z off) off) hin
  have hcode : HeaderType.ofCode (hdrNibble (z.mem off)) = some t := ht
  have hkey : hdrKey (z.mem off) (z.mem (off + 1)) = keyAt z off := rfl
  have hlen : off + 4 ≤ z.size → read16 z (off + 2) = .ok (lengthAt z off) := read16_of_le
  rw [turn, readByte_of_lt (by omega), readByte_of_lt (by omega), ok_bind, ok_bind]
  rw [recordSize, ht] at hin
  cases t <;> simp only [hcode, hkey, goes, recordSize, ht, hdrSize, eventAt] at hin ⊢
  case mapOpen =>
    rw [hlen (by omega)]
    cases cb (.mapOpen off (keyAt z off)) s with
    | error x => rfl
    | ok p =>
      simp only [ok_bind, pure_ok, mapOpenValueSize]
      by_cases hr : p.1 &&& actionGotoEndMap = 0
      · simp [hr]
      · by_cases hl : lengthAt z off = 0 <;> simp [hr, hl]
  case mapClose => rfl
  case arrayOpen => rw [read16_of_le (by omega)]; rfl
  case arrayClose => rfl
  case int16 => rw [hlen (by omega)]; rfl
  case int32 => rw [read32_of_le (by omega)]; rfl
  case int64 => rw [read64With_of_le _ (by omega)]; rfl
  case string =>
    rw [hlen (by omega), ok_bind, Nat.add_assoc off 2 2, Nat.add_assoc off (2 + 2), ← Nat.add_assoc]
    rfl
  case float => rw [readFloat_of_le (by omega)]; rfl
  case double => rw [read64With_of_le _ (by omega)]; rfl
  case boolean => rw [readByte_of_lt (by omega)]; rfl

end Turn

section Traversal
variable {z : Zone} {off off' : Nat} {deep deep' : Int} {σ : Type}

theorem turn_unknown {cb : Callbacks σ} (ht : typeAt z off = none)
    (hin : off + recordSize z off ≤ z.size)
    (s : σ) : turn z cb off deep s = .ok (.go (-1) off deep s) := by
  have hcode : HeaderType.ofCode (hdrNibble (z.mem off)) = none := ht
  have h2 := two_le_recordSize z off
  rw [turn, readByte_of_lt (by omega), readByte_of_lt (by omega), ok_bind, ok_bind]
  simp only [hcode]
  rfl

theorem goes_leads {t : HeaderType} (ht : typeAt z off = some t) {r r' : UInt32} {s s' : σ}
    (h : goes z off deep r s t = .go r' off' deep' s') :
    r' &&& actionStopLoop ≠ 0 ∨ Leads z off deep off' deep' := by
  have hstop : actionStopLoop &&& actionStopLoop ≠ 0 := by decide
  rw [Leads, ht]
  cases t <;> simp only [goes] at h ⊢
  case mapOpen =>
    split at h
    · split at h
      · cases h
      · rename_i hl
        cases h
        exact .inr (.inr ⟨hl, rfl, rfl⟩)
    · cases h
      exact .inr (.inl ⟨rfl, rfl⟩)
  case mapClose =>
    cases h
    split
    · exact .inl hstop
    · rename_i hd
      exact .inr ⟨hd, rfl, rfl⟩
  all_goals
    cases h
    exact .inr ⟨rfl, rfl⟩

theorem eventAt_inside {t : HeaderType} (ht : typeAt z off = some t)
    (hin : off + recordSize z off ≤ z.size) : (eventAt z off deep t).inside z := by
  cases t <;> try rfl
  rw [recordSize, ht] at hin
  simp only [eventAt, Event.inside, decide_eq_true_eq]
  dsimp only at hin
  omega

/-- From a record at which it can arrive the loop goes on without a fault. -/
theorem WellDelimited.loopAt (hw : WellDelimited z) (f : Event → σ → UInt32 × σ)
    (hr : Reaches z off deep) (s : σ) : ∃ r, loopAt z (guarded z f) 0 off deep s = .ok r := by
  induction hn : z.size - off using Nat.strongRecOn generalizing off deep s with
  | ind n ih =>
    have hin := hw off deep hr
    rw [loopAt_eq]
    cases ht : typeAt z off with
    | none =>
      have hstop : ¬(-1 : UInt32) &&& actionStopLoop = 0 := by decide
      refine ⟨(bkvOk, off, s), ?_⟩
      rw [turn_unknown ht hin, ok_bind]
      simp only [hstop, false_and, if_false]
    | some t =>
      have hturn := turn_record (guarded z f) deep ht hin s
      rw [guarded, if_pos (eventAt_inside ht hin), ok_bind] at hturn
      rw [hturn, ok_bind]
      cases hg : goes z off deep (f (eventAt z off deep t) s).1 (f (eventAt z off deep t) s).2 t with
      | quit s' => exact ⟨_, rfl⟩
      | go r' off' deep' s' =>
        dsimp only
        split
        · rename_i hgo
          have hlead := (goes_leads ht hg).resolve_left (not_not_intro hgo.1)
          have hlt : off < off' := by
            rw [hg] at hturn
            exact (turn_forward hturn).2.resolve_right (not_not_intro hgo.1)
          have hz := (turn_forward (hg ▸ hturn)).1
          exact ih (z.size - off') (by omega) (.step hr hlead hgo.2) s' rfl
        · exact ⟨_, rfl⟩

end Traversal

section Guide
variable {z : Zone} {off off' : Nat} {deep deep' : Int}

/-- Callbacks that enter a map or leave it out as they are told, map by map. -/
def guide : Event → List Bool → UInt32 × List Bool
  | .mapOpen _ _, skip :: rest => (if skip then actionGotoEndMap else actionNone, rest)
  | _, rest => (actionNone, rest)

theorem read16_ok {i : Nat} {v : UInt16} (h : read16 z i = .ok v) : i + 2 ≤ z.size := by
  obtain ⟨m0, -, h⟩ := bind_ok h
  obtain ⟨m1, h1, -⟩ := bind_ok h
  exact readByte_ok h1

theorem read32_ok {i : Nat} {v : UInt32} (h : read32 z i = .ok v) : i + 4 ≤ z.size := by
  obtain ⟨m0, -, h⟩ := bind_ok h
  obtain ⟨m1, -, h⟩ := bind_ok h
  obtain ⟨m2, -, h⟩ := bind_ok h
  obtain ⟨m3, h3, -⟩ := bind_ok h
  exact readByte_ok h3

theorem readFloat_ok {i : Nat} {v : UInt32} (h : readFloat z i = .ok v) : i + 4 ≤ z.size := by
  obtain ⟨m0, -, h⟩ := bind_ok h
  obtain ⟨m1, -, h⟩ := bind_ok h
  obtain ⟨m2, -, h⟩ := bind_ok h
  obtain ⟨m3, h3, -⟩ := bind_ok h
  exact readByte_ok h3

theorem read64With_ok {g : UInt8 → UInt8 → UInt8 → UInt8 → UInt8 → UInt8 → UInt8 → UInt8 → UInt64}
    {i : Nat} {v : UInt64} (h : read64With g z i = .ok v) : i + 8 ≤ z.size := by
  obtain ⟨m0, -, h⟩ := bind_ok h
  obtain ⟨m1, -, h⟩ := bind_ok h
  obtain ⟨m2, -, h⟩ := bind_ok h
  obtain ⟨m3, -, h⟩ := bind_ok h
  obtain ⟨m4, -, h⟩ := bind_ok h
  obtain ⟨m5, -, h⟩ := bind_ok h
  obtain ⟨m6, -, h⟩ := bind_ok h
  obtain ⟨m7, h7, -⟩ := bind_ok h
  exact readByte_ok h7

theorem inside_of_turn {t : Turn (List Bool)}
    (ht : turn z (guarded z guide) off deep [true] = .ok t) : off + recordSize z off ≤ z.size := by
  obtain ⟨b0, h0, ht⟩ := bind_ok ht
  obtain ⟨b1, h1, ht⟩ := bind_ok ht
  have hlt := readByte_ok h1
  rw [readByte_of_lt (readByte_ok h0), Except.ok.injEq] at h0
  subst h0
  have hs : hdrSize = 2 := rfl
  rw [recordSize, typeAt]
  dsimp only at ht
  split at ht <;> rename_i hcode <;> simp only [hcode]
  case h_1 =>
    obtain ⟨⟨r, s⟩, hcb, ht⟩ := bind_ok ht
    cases hcb
    have hgoto : actionGotoEndMap &&& actionGotoEndMap ≠ 0 := by decide
    dsimp only at ht
    rw [if_pos rfl, if_pos hgoto] at ht
    obtain ⟨n, hn, -⟩ := bind_ok ht
    exact read16_ok hn
  case h_3 =>
    obtain ⟨n, hn, -⟩ := bind_ok ht
    exact read16_ok hn
  case h_5 =>
    obtain ⟨n, hn, -⟩ := bind_ok ht
    exact read16_ok hn
  case h_6 =>
    obtain ⟨n, hn, -⟩ := bind_ok ht
    exact read32_ok hn
  case h_7 =>
    obtain ⟨n, hn, -⟩ := bind_ok ht
    exact read64With_ok hn
  case h_8 =>
    -- the callback is handed the string only when it lies in the zone
    obtain ⟨n, hn, ht⟩ := bind_ok ht
    obtain ⟨p, hcb, -⟩ := bind_ok ht
    have hz := read16_ok hn
    rw [read16_of_le hz, Except.ok.injEq] at hn
    subst hn
    rw [guarded] at hcb
    split at hcb
    · rename_i hin
      simp only [Event.inside, decide_eq_true_eq, hs] at hin
      rw [← Nat.add_assoc]
      exact hin
    · cases hcb
  case h_9 =>
    obtain ⟨n, hn, -⟩ := bind_ok ht
    exact readFloat_ok hn
  case h_10 =>
    obtain ⟨n, hn, -⟩ := bind_ok ht
    exact read64With_ok hn
  case h_11 =>
    obtain ⟨n, hn, -⟩ := bind_ok ht
    have := readByte_ok hn
    omega
  all_goals omega

theorem leads_goes {t : HeaderType} (ht : typeAt z off = some t)
    (hl : Leads z off deep off' deep') : ∃ told, ∀ rest, ∃ r, r &&& actionStopLoop = 0 ∧
      goes z off deep (guide (eventAt z off deep t) (told ++ rest)).1
        (guide (eventAt z off deep t) (told ++ rest)).2 t = .go r off' deep' rest := by
  have hnone : actionNone &&& actionStopLoop = 0 := by decide
  have henter : ¬actionNone &&& actionGotoEndMap ≠ 0 := by decide
  have hskip : actionGotoEndMap &&& actionGotoEndMap ≠ 0 := by decide
  have hgoto : actionGotoEndMap &&& actionStopLoop = 0 := by decide
  rw [Leads, ht] at hl
  cases t
  case mapOpen =>
    rcases hl with ⟨rfl, rfl⟩ | ⟨hlen, rfl, rfl⟩
    · refine ⟨[false], fun rest => ⟨actionNone, hnone, ?_⟩⟩
      exact if_neg henter
    · refine ⟨[true], fun rest => ⟨actionGotoEndMap, hgoto, ?_⟩⟩
      exact (if_pos hskip).trans (if_neg hlen)
  case mapClose =>
    obtain ⟨hd, rfl, rfl⟩ := hl
    refine ⟨[], fun rest => ⟨actionNone, hnone, ?_⟩⟩
    simp only [goes, if_neg hd]
    rfl
  all_goals
    obtain ⟨rfl, rfl⟩ := hl
    exact ⟨[], fun rest => ⟨actionNone, hnone, rfl⟩⟩

theorem loopAt_inside {base : Nat} {r : Int × Nat × List Bool}
    (h : loopAt z (guarded z guide) base off deep [true] = .ok r) :
    off + recordSize z off ≤ z.size := by
  rw [loopAt_eq] at h
  obtain ⟨t, ht, -⟩ := bind_ok h
  exact inside_of_turn ht

theorem Reaches.guided (hr : Reaches z off deep)
    (h : ∀ rest, ∃ r, loopAt z (guarded z guide) 0 0 0 rest = .ok r) :
    ∃ told, ∀ rest, loopAt z (guarded z guide) 0 0 0 (told ++ rest) =
      loopAt z (guarded z guide) 0 off deep rest := by
  induction hr with
  | start => exact ⟨[], fun rest => rfl⟩
  | @step off off' deep deep' hr hl hb ih =>
    obtain ⟨told, htold⟩ := ih
    obtain ⟨r, hrun⟩ := h (told ++ [true])
    rw [htold] at hrun
    have hin := loopAt_inside hrun
    cases ht : typeAt z off with
    | none => simp [Leads, ht] at hl
    | some t =>
      obtain ⟨more, hmore⟩ := leads_goes ht hl
      refine ⟨told ++ more, ?_⟩
      intro rest
      obtain ⟨r', hgo, hgoes⟩ := hmore rest
      rw [List.append_assoc, htold, loopAt_eq, turn_record _ _ ht hin, guarded,
        if_pos (eventAt_inside ht hin), ok_bind, hgoes, ok_bind]
      simp only [hgo, hb, and_self, if_true]

end Guide

section Buffer

theorem bkvValInit_priv {z : Zone} {p_val v : BkvVal} {p_ptr : Nat} {r : Int}
    (h : bkvValInit z p_val p_ptr = .ok (r, v)) : v.priv = p_ptr := by
  obtain ⟨b0, -, h⟩ := bind_ok h
  obtain ⟨b1, -, h⟩ := bind_ok h
  dsimp only at h
  split at h
  · cases h
    rfl
  · cases h
    rfl
  · obtain ⟨n, -, h⟩ := bind_ok h
    cases h
    rfl
  · obtain ⟨n, -, h⟩ := bind_ok h
    cases h
    rfl
  · cases h
    rfl

theorem bkvValInit_inside {z : Zone} {off : Nat} (p_val : BkvVal)
    (hin : off + recordSize z off ≤ z.size) : ∃ r v, bkvValInit z p_val off = .ok (r, v) := by
  have h2 := two_le_recordSize z off
  rw [bkvValInit, readByte_of_lt (by omega), readByte_of_lt (by omega), ok_bind, ok_bind]
  rw [recordSize, typeAt] at hin
  dsimp only
  split
  · exact ⟨_, _, rfl⟩
  · exact ⟨_, _, rfl⟩
  · rename_i hcode
    simp only [hcode] at hin
    rw [hdrSize, read16_of_le (by omega)]
    exact ⟨_, _, rfl⟩
  · rename_i hcode
    simp only [hcode] at hin
    rw [hdrSize, read32_of_le (by omega)]
    exact ⟨_, _, rfl⟩
  · exact ⟨_, _, rfl⟩

theorem readsInside_iff {z : Zone} : ReadsInside z ↔ WellDelimited z := by
  constructor
  · intro h off deep hr
    have hloop : ∀ rest, ∃ r, loopAt z (guarded z guide) 0 0 0 rest = .ok r := by
      intro rest
      obtain ⟨r, v, l_ret, s', hinit, heach⟩ := h bkvValInitValue (List Bool) guide rest
      obtain ⟨p, hp, -⟩ := bind_ok heach
      rw [valForeachPtr_eq, bkvValInit_priv hinit] at hp
      exact ⟨p, hp⟩
    obtain ⟨told, htold⟩ := hr.guided hloop
    obtain ⟨r, hrun⟩ := hloop (told ++ [true])
    rw [htold] at hrun
    exact loopAt_inside hrun
  · intro hw p_val σ f s
    obtain ⟨r, v, hinit⟩ := bkvValInit_inside p_val (hw 0 0 .start)
    obtain ⟨⟨l_ret, p, s'⟩, hrun⟩ := hw.loopAt f .start s
    refine ⟨r, v, l_ret, s', hinit, ?_⟩
    rw [bkvValForeach, valForeach, valForeachPtr_eq, bkvValInit_priv hinit, hrun]
    rfl

/-- The zones differ at most outside of what may be read. -/
theorem readsInside_congr {z z' : Zone} (hs : z.size = z'.size) (hb : readByte z = readByte z') :
    ReadsInside z ↔ ReadsInside z' := by
  have h16 : read16 z = read16 z' := by
    funext i
    simp only [read16, hb]
  have h32 : read32 z = read32 z' := by
    funext i
    simp only [read32, hb]
  have hfloat : readFloat z = readFloat z' := by
    funext i
    simp only [readFloat, hb]
  have h64 : ∀ g, read64With g z = read64With g z' := by
    intro g
    funext i
    simp only [read64With, hb]
  have hturn : ∀ {σ : Type} (cb : Callbacks σ), turn z cb = turn z' cb := by
    intro σ cb
    funext off deep s
    simp only [turn, hb, h16, h32, hfloat, h64]
  have hloop : ∀ {σ : Type} (cb : Callbacks σ) base fuel,
      loop z cb base fuel = loop z' cb base fuel := by
    intro σ cb base fuel
    induction fuel with
    | zero => rfl
    | succ fuel ih =>
      funext off deep s
      rw [loop, loop, hturn, ih]
  have hinit : bkvValInit z = bkvValInit z' := by
    funext p_val off
    simp only [bkvValInit, hb, h16, h32]
  have hguard : ∀ {σ : Type} (f : Event → σ → UInt32 × σ), guarded z f = guarded z' f := by
    intro σ f
    funext e s
    have hin : e.inside z = e.inside z' := by cases e <;> simp only [Event.inside, hs]
    simp only [guarded, hin, hs]
  simp only [ReadsInside, hinit, bkvValForeach, valForeach, valForeachPtr, hguard, hloop, hs]

/-- A buffer of unknown origin is read without leaving it, whatever the callbacks, exactly when
every record at which a traversal can arrive lies in it. -/
theorem untrusted_reads_inside_iff (env : Env) (id : Nat) (p : BkvCreate) (h : Bkv)
    (hp : p.createType = .unsafeInputBuffer) (hm : env.malloc p.inputPtrLength)
    (hcreate : bkvCreate env id p = (bkvOk, some h)) :
    ReadsInside (bkvGetHead h) ↔ WellDelimited ⟨p.inputPtr, p.inputPtrLength⟩ := by
  have hhead : (bkvGetHead h).size = p.inputPtrLength ∧
      ∀ i, i < p.inputPtrLength → (bkvGetHead h).mem i = p.inputPtr i := by
    simp only [bkvCreate, openBuffer, hp, hm] at hcreate
    cases hh : env.mallocHandle <;> simp [hh] at hcreate
    subst hcreate
    exact ⟨rfl, fun i hi => if_pos hi⟩
  rw [← readsInside_iff]
  apply readsInside_congr hhead.1
  funext i
  by_cases hi : i < p.inputPtrLength
  · rw [readByte_of_lt (hhead.1 ▸ hi), readByte_of_lt hi, hhead.2 i hi]
  · rw [readByte, readByte, Zone.byte?_of_ge (hhead.1 ▸ Nat.le_of_not_lt hi),
      Zone.byte?_of_ge (Nat.le_of_not_lt hi)]

/-- An input buffer with the given bytes. -/
def untrustedInput (bytes : List UInt8) : BkvCreate :=
  { bkvCreateInit with
    createType := .unsafeInputBuffer
    inputPtr := fun i => bytes.getD i 0
    inputPtrLength := bytes.length }

/-- An empty map, and a header of no known type behind it where the traversal ends that leaves the
map out. -/
theorem empty_map_reads_inside : ∃ h,
    bkvCreate calmEnv 0 (untrustedInput [0x10, 0, 0, 6, 0x20, 0, 0, 0]) = (bkvOk, some h) ∧
      ReadsInside (bkvGetHead h) := by
  refine ⟨_, rfl, (untrusted_reads_inside_iff calmEnv 0
    (untrustedInput [0x10, 0, 0, 6, 0x20, 0, 0, 0]) _ rfl rfl rfl).mpr ?_⟩
  intro off deep hr
  have hplace : off = 0 ∧ deep = 0 ∨ off = 4 ∧ deep = 1 ∨ off = 6 ∧ deep = 0 := by
    induction hr with
    | start => exact .inl ⟨rfl, rfl⟩
    | step _ hl _ ih =>
      rcases ih with ⟨rfl, rfl⟩ | ⟨rfl, rfl⟩ | ⟨rfl, rfl⟩
      · rcases hl with ⟨rfl, rfl⟩ | ⟨-, rfl, rfl⟩
        · exact .inr (.inl ⟨rfl, rfl⟩)
        · exact .inr (.inr ⟨rfl, rfl⟩)
      · exact absurd rfl hl.1
      · exact hl.elim
  rcases hplace with ⟨rfl, rfl⟩ | ⟨rfl, rfl⟩ | ⟨rfl, rfl⟩ <;> decide

/-- The four bytes announce a string of 65535 characters. -/
theorem truncated_string_overruns : ∃ h,
    bkvCreate calmEnv 0 (untrustedInput [0x80, 1, 0xFF, 0xFF]) = (bkvOk, some h) ∧
      ¬ReadsInside (bkvGetHead h) := by
  refine ⟨_, rfl, ?_⟩
  intro hin
  obtain ⟨r, v, l_ret, s', hinit, heach⟩ := hin bkvValInitValue Unit (fun _ s => (actionNone, s)) ()
  cases hinit
  cases heach

end Buffer

end Wtools
