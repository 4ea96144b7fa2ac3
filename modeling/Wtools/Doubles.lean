import Wtools.PathSearch

/-!
# Doubles in a document

`cpu_to_le_double` stores the low half of the pattern, with its sign in the high half. The
traversal passes what is stored, and the lookup gives it out as a string.
-/

namespace Wtools
open ByteMemory Forest

theorem doubleStored_toNat (d : UInt64) : (doubleStored d).toNat =
    if d.toNat % 2 ^ 32 < 2 ^ 31 then d.toNat % 2 ^ 32
    else 2 ^ 64 - 2 ^ 32 + d.toNat % 2 ^ 32 := by
  rw [doubleStored, floatTmp_eq]
  have hbits : (d.toUInt32.toInt32.toInt64.toUInt64).toNat =
      (d.toUInt32.toBitVec.signExtend 64).toNat := rfl
  have hlow : d.toUInt32.toBitVec.toNat = d.toNat % 2 ^ 32 := by simp
  rw [hbits, BitVec.toNat_signExtend, BitVec.msb_eq_decide, hlow, BitVec.toNat_setWidth, hlow]
  simp
  split <;> split <;> omega

/-- The patterns that are stored as they are: the upper 33 bits are all equal. -/
theorem doubleStored_eq_iff (d : UInt64) :
    doubleStored d = d ↔ d.toNat < 2 ^ 31 ∨ 2 ^ 64 - 2 ^ 31 ≤ d.toNat := by
  rw [← UInt64.toNat_inj, doubleStored_toNat]
  have hlt := d.toNat_lt
  split <;> omega

section Index
variable {ck cn : Nat → UInt16}

theorem callEvents_getElem? (deep : Int) (off : Nat) (cs : List Call) (i : Nat) :
    (callEvents ck cn deep off cs)[i]? = cs[i]?.map
      (callEvent ck cn (deep + steps (cs.take i)) (off + widths (cs.take i))) := by
  induction cs generalizing deep off i with
  | nil => rfl
  | cons c cs ih =>
    cases i with
    | zero => simp [callEvents]
    | succ i =>
      rw [callEvents, List.getElem?_cons_succ, ih, List.getElem?_cons_succ, List.take_succ_cons,
        steps_cons, widths_cons, Int.add_assoc, Nat.add_assoc]

end Index

/-- Callbacks that keep every invocation and ask for nothing. -/
def recorder : Callbacks (List Event) := fun e evs => .ok (actionNone, evs ++ [e])

/-- The traversal of a document passes a pattern to the double callback for its `i`-th record. -/
def PassesDouble (h : Bkv) (i : Nat) (key : UInt16) (d : UInt64) : Prop :=
  ∃ v evs, bkvValInit (bkvGetHead h) bkvValInitValue 0 = .ok (bkvOk, v) ∧
    bkvValForeach (bkvGetHead h) v recorder [] = .ok (bkvOk, evs) ∧
    ∃ off, evs[i]? = some (.double off key d)

def ValType.isNumeric : ValType → Bool
  | .int16 | .int32 | .int64 | .number | .float => true
  | _ => false

/-- The lookup of a path in a document gives a number with a pattern. -/
def FindsDouble (h : Bkv) (path : List UInt16) (d : UInt64) : Prop :=
  ∃ v, bkvValInit (bkvGetHead h) bkvValInitValue 0 = .ok (bkvOk, v) ∧
    ∀ (nb_val : Int) (val : Cells BkvVal), ∃ val',
      bkvValGet2 (bkvGetHead h) v (some (path ++ [bkvKeyInvalid])) nb_val val =
          .ok (bkvOk, val') ∧
        (val' 0).u = .d d ∧ (val' 0).type.isNumeric

/-- A path names a double whose record is the `i`-th in the contents of a map: in every map that
the path enters, the records in front of the next member do not have its key. -/
inductive NamesDouble (d : UInt64) : Items → List UInt16 → Nat → Prop
  | member {f : Items} {key : UInt16} (rest : Items) (hf : Hidden key f)
      (hk : key ≠ bkvKeyInvalid) :
      NamesDouble d (f ++ .leaf (.keyed key (.double d)) rest) [key] (calls f).length
  | inside {f : Items} {key : UInt16} {body : Items} {path : List UInt16} {i : Nat} (rest : Items)
      (hf : Hidden key f) (hk : key ≠ bkvKeyInvalid) (hn : NamesDouble d body path i) :
      NamesDouble d (f ++ .node (.map, key) body rest) (key :: path) ((calls f).length + 1 + i)

section Walk
variable {d : UInt64} {f : Items} {path : List UInt16} {i : Nat}

theorem NamesDouble.keys (hn : NamesDouble d f path i) : ∀ k ∈ path, k ≠ bkvKeyInvalid := by
  induction hn with
  | member rest hf hk => simpa using hk
  | inside rest hf hk _ ih => exact List.forall_mem_cons.mpr ⟨hk, ih⟩

theorem NamesDouble.ne_nil (hn : NamesDouble d f path i) : path ≠ [] := by
  cases hn <;> exact List.cons_ne_nil _ _

theorem Searching.hit_double {k : UInt16} {c : GetCtx} (hc : Searching k true c) (p : Nat) :
    visit valGetCallbacks (.double p k d) c =
      .ok (⟨false, true⟩, c.setVal fun v => { v with type := .string, u := .d d }) := by
  have hstop : actionStopLoop ≠ 0 := by decide
  simp [visit, valGetCallbacks, bkvValGetDouble, getLast, hc.found, Except.map, skips,
    Event.isMapOpen, hstop]

/-- The search for a path ends at the double that the path names. -/
theorem NamesDouble.walk (hn : NamesDouble d f path i) (ck cn : Nat → UInt16) (deep : Int)
    (off : Nat) (before : List UInt16) (nb_val : Int) (val : Cells BkvVal) :
    ∃ c', (placed ck cn deep off f).walk (visit valGetCallbacks)
        (seekingFrom before path nb_val val) = .ok (true, c') ∧ c'.valIsSet = true ∧
      (c'.val 0).type = .string ∧ (c'.val 0).u = .d (doubleStored d) := by
  induction hn generalizing deep off before with
  | @member f key rest hf hk =>
    have hc : Searching key true (seekingFrom before [key] nb_val val) :=
      searching_from before nb_val val (List.forall_mem_nil _)
    rw [placed_append, walk_append, hc.miss hf, Outcome.next_going, placed, Forest.walk]
    simp only [Entry.key, Entry.scalar, scalarEvent, hc.hit_double]
    exact ⟨_, rfl, rfl, by simp [GetCtx.setVal], by simp [GetCtx.setVal]⟩
  | @inside f key body path i rest hf hk hn ih =>
    have hc := searching_from (k := key) before nb_val val hn.keys
    obtain ⟨c', hwalk, hset, htype, hu⟩ := ih (deep + 1) (off + size f + 4) (before ++ [key])
    refine ⟨c', ?_, hset, htype, hu⟩
    rw [placed_append, walk_append, hc.miss hf, Outcome.next_going, placed, Forest.walk]
    simp only [openEvent, enters_map before path nb_val val hn.keys hn.ne_nil, enter,
      Kind.openWidth]
    rw [hwalk]
    rfl

end Walk

section Document
variable {env : Env} {h₀ h : Bkv} {root key : UInt16} {body : Items} {d : UInt64} {i : Nat}

/-- A closed document with fields that are large enough, at the head of its handle. -/
theorem document_mapAt (hf : FreshRam env h₀) (hl : Legal .map body)
    (hr : runOk env h₀ (calls (.node (.map, root) body .nil)) = some h)
    (hsize : h.writeOffset ≤ 65535)
    (hk : ∀ k key, .opening k key ∈ calls (.node (.map, root) body .nil) → key ≤ 0xFFF) :
    MapAt (bkvGetHead h) 0 root body ∧
      bkvValInit (bkvGetHead h) bkvValInitValue 0 =
        .ok (bkvOk, { bkvValInitValue with type := .object, key := root, priv := 0 }) := by
  obtain ⟨hfit, hw, hin⟩ := document_laid hf hl hr
  have hm := mapAt_head hfit hw hsize (calls_fit (hw ▸ hsize) hin hk)
  exact ⟨hm, bkvValInit_map hm.laid hm.inside (hk .map root (by simp)) _⟩

theorem foldl_record (es evs : List Event) :
    es.foldl (fun evs e => evs ++ [e]) evs = evs ++ es := by
  induction es generalizing evs with
  | nil => simp
  | cons e es ih => simp [ih]

/-- The traversal of a document makes the invocations of its calls. -/
theorem MapAt.recorded {z : Zone} (hm : MapAt z 0 root body) {v : BkvVal} (hv : v.priv = 0) :
    bkvValForeach z v recorder [] = .ok (bkvOk, callEvents (closeKeys z.mem) (counts z.mem) 0 0
      (calls (.node (.map, root) body .nil))) := by
  have hz := hm.inside
  have hnear := hm.near
  rw [Nat.zero_add] at hz hnear
  have hvisits := foreach_visits hm.laid hz hnear hm.fitting hv (fun evs e => evs ++ [e]) []
  rw [foldl_record, visits_eq, List.nil_append] at hvisits
  rw [bkvValForeach, valForeach]
  change (valForeachPtr z v (fun e evs => .ok (actionNone, evs ++ [e])) [] >>= _) = _
  rw [hvisits]
  rfl

theorem MapAt.passes_iff (hm : MapAt (bkvGetHead h) 0 root body)
    (hinit : bkvValInit (bkvGetHead h) bkvValInitValue 0 =
      .ok (bkvOk, { bkvValInitValue with type := .object, key := root, priv := 0 }))
    (hi : (calls body)[i]? = some (.add (.keyed key (.double d)))) (d' : UInt64) :
    PassesDouble h (i + 1) key d' ↔ doubleStored d = d' := by
  obtain ⟨hlt, -⟩ := List.getElem?_eq_some_iff.mp hi
  have hcall : (calls (.node (.map, root) body .nil))[i + 1]? =
      some (.add (.keyed key (.double d))) := by
    rw [calls_node, List.getElem?_cons_succ, List.getElem?_append_left hlt, hi]
  have hevent : ∀ ck cn : Nat → UInt16, ∃ off,
      (callEvents ck cn 0 0 (calls (.node (.map, root) body .nil)))[i + 1]? =
        some (.double off key (doubleStored d)) := by
    intro ck cn
    rw [callEvents_getElem?, hcall]
    exact ⟨_, rfl⟩
  obtain ⟨off, hoff⟩ := hevent (closeKeys (bkvGetHead h).mem) (counts (bkvGetHead h).mem)
  constructor
  · rintro ⟨v, evs, hv, hfor, off', hoff'⟩
    rw [hinit] at hv
    cases hv
    rw [hm.recorded rfl] at hfor
    cases hfor
    rw [hoff] at hoff'
    cases hoff'
    rfl
  · rintro rfl
    exact ⟨_, _, hinit, hm.recorded rfl, off, hoff⟩

/-- The lookup of a path that names a double gives the pattern that is stored, as a string. -/
theorem MapAt.get2_double {z : Zone} (hm : MapAt z 0 root body) {v : BkvVal} (hv : v.priv = 0)
    {path : List UInt16} (hn : NamesDouble d body path i) (nb_val : Int) (val : Cells BkvVal) :
    ∃ val', bkvValGet2 z v (some (path ++ [bkvKeyInvalid])) nb_val val = .ok (bkvOk, val') ∧
      (val' 0).type = .string ∧ (val' 0).u = .d (doubleStored d) := by
  obtain ⟨c', hwalk, hset, htype, hu⟩ :=
    hn.walk (closeKeys z.mem) (counts z.mem) 1 (0 + 4) [] nb_val val
  refine ⟨c'.val, ?_, htype, hu⟩
  rw [hm.get2 hv]
  replace hwalk : (placed (closeKeys z.mem) (counts z.mem) 1 (0 + 4) body).walk
    (visit valGetCallbacks) ⟨some (path ++ [bkvKeyInvalid]), nb_val, val, 0, false, 0, false⟩ =
      _ := hwalk
  rw [hwalk]
  simp [Except.map, hset]

theorem MapAt.not_finds (hm : MapAt (bkvGetHead h) 0 root body)
    (hinit : bkvValInit (bkvGetHead h) bkvValInitValue 0 =
      .ok (bkvOk, { bkvValInitValue with type := .object, key := root, priv := 0 }))
    {path : List UInt16} (hn : NamesDouble d body path i) : ¬FindsDouble h path d := by
  rintro ⟨v, hv, hget⟩
  rw [hinit] at hv
  cases hv
  obtain ⟨val', hval', -, hnum⟩ := hget 1 fun _ => bkvValInitValue
  obtain ⟨val₁, hval₁, htype, -⟩ :=
    hm.get2_double (v := { bkvValInitValue with type := .object, key := root, priv := 0 }) rfl hn 1
      fun _ => bkvValInitValue
  rw [hval₁] at hval'
  cases hval'
  rw [htype] at hnum
  cases hnum

end Document

/-- A double survives the format exactly when the upper 33 bits of its pattern are all equal and no
path names it: what a path finds is given out as a string. -/
theorem double_survives_iff (env : Env) (h₀ h : Bkv) (root : UInt16) (body : Items)
    (hf : FreshRam env h₀) (hl : Legal .map body)
    (hr : runOk env h₀ (calls (.node (.map, root) body .nil)) = some h)
    (hsize : h.writeOffset ≤ 65535)
    (hk : ∀ k key, .opening k key ∈ calls (.node (.map, root) body .nil) → key ≤ 0xFFF)
    (i : Nat) (key : UInt16) (d : UInt64)
    (hi : (calls body)[i]? = some (.add (.keyed key (.double d)))) :
    ((PassesDouble h (i + 1) key d ∧ ∀ path, NamesDouble d body path i → FindsDouble h path d) ↔
        (d.toNat < 2 ^ 31 ∨ 2 ^ 64 - 2 ^ 31 ≤ d.toNat) ∧ ∀ path, ¬NamesDouble d body path i) ∧
      PassesDouble h (i + 1) key (doubleStored d) ∧
      ∀ path, NamesDouble d body path i → ∃ v,
        bkvValInit (bkvGetHead h) bkvValInitValue 0 = .ok (bkvOk, v) ∧
          ∀ (nb_val : Int) (val : Cells BkvVal), ∃ val',
            bkvValGet2 (bkvGetHead h) v (some (path ++ [bkvKeyInvalid])) nb_val val =
                .ok (bkvOk, val') ∧
              (val' 0).type = .string ∧ (val' 0).u = .d (doubleStored d) := by
  obtain ⟨hm, hinit⟩ := document_mapAt hf hl hr hsize hk
  refine ⟨?_, (hm.passes_iff hinit hi _).mpr rfl, ?_⟩
  · rw [hm.passes_iff hinit hi, doubleStored_eq_iff]
    constructor
    · rintro ⟨hd, hall⟩
      exact ⟨hd, fun path hn => hm.not_finds hinit hn (hall path hn)⟩
    · rintro ⟨hd, hnone⟩
      exact ⟨hd, fun path hn => absurd hn (hnone path)⟩
  · intro path hn
    refine ⟨_, hinit, ?_⟩
    intro nb_val val
    apply hm.get2_double _ hn
    rfl

theorem double_survives_iff_one : ∃ h, runOk calmEnv ramHandle
      [.opening .map 0, .add (.keyed 7 (.double 0x3FF0000000000000)), .closing .map] = some h ∧
    PassesDouble h 1 7 0 :=
  ⟨_, rfl, (double_survives_iff calmEnv ramHandle _ 0
    (.leaf (.keyed 7 (.double 0x3FF0000000000000)) .nil) ramHandle_fresh ⟨rfl, trivial⟩ rfl
    (by decide) (by simp) 0 7 0x3FF0000000000000 rfl).2.1⟩

/-- The double 1.0 is passed as 0.0, and the path that names it gives a string. -/
theorem one_becomes_zero : ∃ h, runOk calmEnv ramHandle
      [.opening .map 0, .add (.keyed 7 (.double 0x3FF0000000000000)), .closing .map] = some h ∧
    NamesDouble 0x3FF0000000000000 (.leaf (.keyed 7 (.double 0x3FF0000000000000)) .nil) [7] 0 ∧
    ¬PassesDouble h 1 7 0x3FF0000000000000 ∧ ¬FindsDouble h [7] 0x3FF0000000000000 := by
  have hrun : (runOk calmEnv ramHandle
      (calls (.node (.map, 0) (.leaf (.keyed 7 (.double 0x3FF0000000000000)) .nil) .nil))).isSome :=
    rfl
  obtain ⟨h, hr⟩ := Option.isSome_iff_exists.mp hrun
  have hn : NamesDouble 0x3FF0000000000000 (.leaf (.keyed 7 (.double 0x3FF0000000000000)) .nil)
      [7] 0 := .member (f := .nil) .nil trivial (by decide)
  have hl : Legal .map (.leaf (.keyed 7 (.double 0x3FF0000000000000)) .nil) := ⟨rfl, trivial⟩
  have hsize : h.writeOffset ≤ 65535 := by
    rw [(document_laid ramHandle_fresh hl hr).2.1]
    decide
  obtain ⟨hm, hinit⟩ := document_mapAt ramHandle_fresh hl hr hsize (by simp)
  refine ⟨h, hr, hn, ?_, ?_⟩
  · rw [hm.passes_iff hinit (d := 0x3FF0000000000000) rfl]
    decide
  · exact hm.not_finds hinit hn

end Wtools
