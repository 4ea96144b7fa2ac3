import Wtools.DeadEnds

/-!
# The key of the root

`bkv_kv_map_open` takes any key, unlike the functions that add values, and the bits above the twelfth
fall into the type of the record. Bit 12 is the one that a map has anyway; with a higher one the root
is read as a record of another type.
-/

namespace Wtools
open ByteMemory Forest

/-- The type with which the record of the root is read. -/
def rootType (root : UInt16) : Option HeaderType :=
  HeaderType.ofCode (hdrNibble (hdrByte .mapOpen root))

section Bytes

theorem hdrByte_mapOpen (root : UInt16) :
    hdrByte .mapOpen root = (0x10 : UInt8) ||| ((root >>> 8) &&& 0xFF).toUInt8 := rfl

theorem highByte_toNat (root : UInt16) :
    (((root >>> 8) &&& 0xFF).toUInt8).toNat = root.toNat / 256 := by
  have hr := root.toNat_lt
  simp [Nat.shiftRight_eq_div_pow, and_byte]
  omega

theorem low_byte : ∀ b : UInt8, b.toNat ≤ 31 → (0x10 : UInt8) ||| b = 0x10 ||| (b &&& 0xF) := by
  decide +kernel

theorem high_byte : ∀ b : UInt8, 32 ≤ b.toNat → HeaderType.ofCode (hdrNibble ((0x10 : UInt8) ||| b)) ∈
    if 192 ≤ b.toNat then [none]
    else [some .arrayOpen, some .int16, some .int64, some .float, some .boolean] := by
  decide +kernel

/-- Up to bit 12 the header is that of a key without it. -/
theorem setKey_masked {root : UInt16} (hroot : root ≤ 0x1FFF) :
    setKey .mapOpen root = setKey .mapOpen (root &&& 0xFFF) := by
  have hr : root.toNat ≤ 0x1FFF := UInt16.le_iff_toNat_le.mp hroot
  have hhigh := highByte_toNat root
  have hbyte : (((root &&& 0xFFF) >>> 8) &&& 0xFF).toUInt8 =
      ((root >>> 8) &&& 0xFF).toUInt8 &&& 0xF := by
    apply UInt8.toNat_inj.mp
    have h15 (n : Nat) : n &&& 15 = n % 16 := Nat.and_two_pow_sub_one_eq_mod n 4
    have h4095 (n : Nat) : n &&& 4095 = n % 4096 := Nat.and_two_pow_sub_one_eq_mod n 12
    simp [Nat.shiftRight_eq_div_pow, and_byte, h15, h4095]
    omega
  have hlow : root &&& 0xFFF &&& 0xFF = root &&& 0xFF := by
    rw [UInt16.and_assoc]
    rfl
  rw [setKey, setKey, hdrByte_mapOpen, hdrByte_mapOpen, hbyte, hlow, low_byte _ (by omega)]

theorem rootType_wide {root : UInt16} (hroot : 0x1FFF < root) : rootType root ∈
    if 0xC000 ≤ root then [none]
    else [some .arrayOpen, some .int16, some .int64, some .float, some .boolean] := by
  have hr : 0x1FFF < root.toNat := UInt16.lt_iff_toNat_lt.mp hroot
  have hhigh := highByte_toNat root
  have hbound : 0xC000 ≤ root ↔ 192 ≤ root.toNat / 256 := by
    rw [UInt16.le_iff_toNat_le]
    change 0xC000 ≤ root.toNat ↔ _
    omega
  have hbyte := high_byte ((root >>> 8) &&& 0xFF).toUInt8 (by omega)
  rw [hhigh] at hbyte
  rw [rootType, hdrByte_mapOpen]
  simpa only [hbound] using hbyte

end Bytes

section Document
variable {env : Env} {h₀ h : Bkv} {root : UInt16} {body : Items}

/-- With a key of at most 13 bits the root is the map with the lower 12. -/
theorem root_mapAt (hf : FreshRam env h₀) (hl : Legal .map body)
    (hr : runOk env h₀ (calls (.node (.map, root) body .nil)) = some h)
    (hsize : h.writeOffset ≤ 65535) (hroot : root ≤ 0x1FFF) (hw : WellKeyed body)
    (hlow : ∀ k ∈ memberKeys body, k < bkvArrayKey) :
    MapAt (bkvGetHead h) 0 (root &&& 0xFFF) body := by
  obtain ⟨hfit, hwritten, hin⟩ := document_laid hf hl hr
  have hmask : root &&& 0xFFF ≤ 0xFFF := UInt16.and_le_right
  have henc : enc (.node (.map, root) body .nil) = enc (.node (.map, root &&& 0xFFF) body .nil) := by
    have hkey : setKey Kind.map.openType root = setKey Kind.map.openType (root &&& 0xFFF) :=
      setKey_masked hroot
    simp only [enc, Kind.header, hkey]
  rw [henc] at hfit
  have hall : ∀ c ∈ calls (.node (.map, root &&& 0xFFF) body .nil), c.inRange := by
    rw [calls_node, List.forall_mem_cons] at hin ⊢
    exact ⟨rfl, hin.2⟩
  have hkeys : WellKeyed (.node (.map, root &&& 0xFFF) body .nil) := ⟨hlow, hw, trivial⟩
  refine mapAt_head hfit hwritten hsize (calls_fit (hwritten ▸ hsize) hall ?_)
  exact hkeys.openings (by simpa [memberKeys] using hmask)

theorem root_read (hf : FreshRam env h₀) (hl : Legal .map body)
    (hr : runOk env h₀ (calls (.node (.map, root) body .nil)) = some h) :
    6 ≤ (bkvGetHead h).size ∧ (bkvGetHead h).mem 0 = hdrByte .mapOpen root := by
  obtain ⟨hfit, hwritten, -⟩ := document_laid hf hl hr
  simp only [enc, Kind.header, fits_append, fits_known, holds_append, setKey, holds_cons] at hfit
  refine ⟨?_, hfit.1.1.1.1⟩
  rw [show (bkvGetHead h).size = h.writeOffset from rfl, hwritten]
  simp only [size, Kind.openWidth, Kind.closeWidth]
  omega

end Document

section Misread
variable {z : Zone} {c : GetCtx}

theorem fails_bind {ε α β : Type} (x : Except ε α) {f : α → Except ε β}
    (hf : ∀ a, ∃ e, f a = .error e) : ∃ e, (x >>= f) = .error e := by
  cases x with
  | error e => exact ⟨e, rfl⟩
  | ok a => exact hf a

/-- A record before the first map makes a search read in front of its path. -/
theorem get_unentered (hkeys : c.keys ≠ none) (hoff : c.keyOffset < 0) {e : Event} {k : UInt16}
    (he : e.key? = some k) (hm : e.isMapOpen = false) :
    valGetCallbacks e c = .error (.keys c.keyOffset) := by
  have hkey : c.key c.keyOffset = .error (.keys c.keyOffset) := by
    rw [GetCtx.key]
    cases c.keys with
    | none => rfl
    | some ks => exact if_pos hoff
  have hfound : c.found k = .error (.keys c.keyOffset) := by
    rw [GetCtx.found, hkey]
    rfl
  rcases keyed_callback hkeys he hm with ⟨-, type, u, f, hcb⟩ | ⟨-, set, hcb⟩
  · rw [hcb, getNumber, if_neg hkeys, hfound]
    rfl
  · rw [hcb, getLast, hfound]
    rfl

/-- A root that is read with the type of a value or of an array. -/
theorem turn_misread (hz : 2 ≤ z.size) {t : HeaderType}
    (ht : HeaderType.ofCode (hdrNibble (z.mem 0)) = some t)
    (hmem : t ∈ [HeaderType.arrayOpen, .int16, .int64, .float, .boolean]) (hkeys : c.keys ≠ none)
    (hoff : c.keyOffset < 0) : ∃ e, turn z valGetCallbacks 0 0 c = .error e := by
  have hcb : ∀ e k, e.key? = some k → e.isMapOpen = false → ∀ f : UInt32 × GetCtx →
      Except Fault (Turn GetCtx), ∃ x, (valGetCallbacks e c >>= f) = .error x := by
    intro e k he hm f
    exact ⟨_, by rw [get_unentered hkeys hoff he hm]; rfl⟩
  rw [turn, readByte_of_lt (by omega), readByte_of_lt (by omega), ok_bind, ok_bind]
  dsimp only
  rw [ht]
  simp only [List.mem_cons, List.not_mem_nil, or_false] at hmem
  rcases hmem with rfl | rfl | rfl | rfl | rfl
  all_goals
    dsimp only
    exact fails_bind _ fun v => hcb _ _ rfl rfl _

theorem get2_misread {v : BkvVal} (hv : v.priv = 0) (hz : 2 ≤ z.size) {t : HeaderType}
    (ht : HeaderType.ofCode (hdrNibble (z.mem 0)) = some t)
    (hmem : t ∈ [HeaderType.arrayOpen, .int16, .int64, .float, .boolean]) (keys : List UInt16)
    (nb_val : Int) (val : Cells BkvVal) :
    ∃ e, bkvValGet2 z v (some keys) nb_val val = .error e := by
  obtain ⟨e, hturn⟩ := turn_misread (c := ⟨some keys, nb_val, val, 0, false, -1, false⟩) hz ht hmem
    (by simp) (by simp)
  refine ⟨e, ?_⟩
  rw [bkvValGet2, if_neg (by simp), valForeach, valForeachPtr, hv, loop, hturn]
  rfl

/-- A root of no type at all ends the search. -/
theorem get2_unknown {v : BkvVal} (hv : v.priv = 0) (hz : 2 ≤ z.size)
    (ht : HeaderType.ofCode (hdrNibble (z.mem 0)) = none) (keys : List UInt16) (nb_val : Int)
    (val : Cells BkvVal) :
    bkvValGet2 z v (some keys) nb_val val = .ok (bkvInvArg, val) := by
  have hturn : turn z valGetCallbacks 0 0 ⟨some keys, nb_val, val, 0, false, -1, false⟩ =
      .ok (.go (-1) 0 0 ⟨some keys, nb_val, val, 0, false, -1, false⟩) := by
    rw [turn, readByte_of_lt (by omega), readByte_of_lt (by omega), ok_bind, ok_bind]
    dsimp only
    rw [ht]
    rfl
  have hstop : actionStopLoop ≠ 0 := by decide
  rw [bkvValGet2, if_neg (by simp), valForeach, valForeachPtr, hv, loop, hturn]
  simp [hstop]

theorem bkvValInit_head (hz : 6 ≤ z.size) (p_val : BkvVal) :
    ∃ r v, bkvValInit z p_val 0 = .ok (r, v) ∧ v.priv = 0 := by
  rw [bkvValInit, readByte_of_lt (by omega), readByte_of_lt (by omega), ok_bind, ok_bind]
  dsimp only
  split
  · exact ⟨_, _, rfl, rfl⟩
  · exact ⟨_, _, rfl, rfl⟩
  · rw [read16, readByte_of_lt (by simp only [hdrSize]; omega),
      readByte_of_lt (by simp only [hdrSize]; omega)]
    exact ⟨_, _, rfl, rfl⟩
  · rw [read32, readByte_of_lt (by simp only [hdrSize]; omega),
      readByte_of_lt (by simp only [hdrSize]; omega), readByte_of_lt (by simp only [hdrSize]; omega),
      readByte_of_lt (by simp only [hdrSize]; omega)]
    exact ⟨_, _, rfl, rfl⟩
  · exact ⟨_, _, rfl, rfl⟩

end Misread

section Lookups
variable {env : Env} {h₀ h : Bkv} {root : UInt16} {body : Items}

/-- What a lookup makes of a root with more than 13 bits. -/
theorem get2_wide (hf : FreshRam env h₀) (hl : Legal .map body)
    (hr : runOk env h₀ (calls (.node (.map, root) body .nil)) = some h) (hroot : 0x1FFF < root)
    {v : BkvVal} (hv : v.priv = 0) (keys : List UInt16) (nb_val : Int) (val : Cells BkvVal) :
    if 0xC000 ≤ root then bkvValGet2 (bkvGetHead h) v (some keys) nb_val val = .ok (bkvInvArg, val)
    else ∃ e, bkvValGet2 (bkvGetHead h) v (some keys) nb_val val = .error e := by
  obtain ⟨hz, hbyte⟩ := root_read hf hl hr
  have htype := rootType_wide hroot
  rw [rootType, ← hbyte] at htype
  split
  · rename_i hhigh
    rw [if_pos hhigh, List.mem_singleton] at htype
    exact get2_unknown hv (by omega) htype keys nb_val val
  · rename_i hhigh
    rw [if_neg hhigh] at htype
    obtain ⟨t, ht, hmem⟩ : ∃ t, HeaderType.ofCode (hdrNibble ((bkvGetHead h).mem 0)) = some t ∧
        t ∈ [HeaderType.arrayOpen, .int16, .int64, .float, .boolean] := by
      simp only [List.mem_cons, List.not_mem_nil, or_false] at htype
      rcases htype with ht | ht | ht | ht | ht
      all_goals exact ⟨_, ht, by simp⟩
    exact get2_misread hv (by omega) ht hmem keys nb_val val

/-- A path that names a member of a closed document finds it if and only if the key of the root has
at most 13 bits. The calls that write a closed document are those of a tree with a map at its root
and legal contents. -/
theorem get2_finds_iff (env : Env) (h₀ h : Bkv) (root : UInt16) (body : Items)
    (hf : FreshRam env h₀) (hl : Legal .map body)
    (hr : runOk env h₀ (calls (.node (.map, root) body .nil)) = some h)
    (hsize : h.writeOffset ≤ 65535) (hs : Searchable (.node (.map, root) body .nil))
    (path : List UInt16) (o : Nat) (m : Member) (hn : Locates body path o m) (p_val : BkvVal) :
    (∃ v, bkvValInit (bkvGetHead h) p_val 0 = .ok (bkvOk, v) ∧
      ∀ (nb_val : Int) (val : Cells BkvVal), ∃ val',
        bkvValGet2 (bkvGetHead h) v (some (path ++ [bkvKeyInvalid])) nb_val val =
          .ok (bkvOk, val') ∧ Fills (bkvGetHead h) (4 + o) m (val' 0)) ↔ root ≤ 0x1FFF := by
  constructor
  · rintro ⟨v, hinit, hget⟩
    by_contra hroot
    obtain ⟨hz, -⟩ := root_read hf hl hr
    obtain ⟨r, v', hinit', hv⟩ := bkvValInit_head hz p_val
    rw [hinit] at hinit'
    cases hinit'
    obtain ⟨val', hok, -⟩ := hget 1 fun _ => p_val
    have hwide := get2_wide hf hl hr (UInt16.not_le.mp hroot) hv (path ++ [bkvKeyInvalid]) 1
      fun _ => p_val
    rw [hok] at hwide
    split at hwide
    · simp [bkvOk, bkvInvArg] at hwide
    · simp at hwide
  · intro hroot
    have hm := root_mapAt hf hl hr hsize hroot hs.2.1.wellKeyed hs.1.2
    refine ⟨_, bkvValInit_map hm.laid hm.inside UInt16.and_le_right p_val, fun nb_val val => ?_⟩
    rw [← append_nil body] at hm
    exact hm.get2_member rfl hs.1 hl hs.2.1 hn nb_val val

/-- A lookup is refused exactly when the records do not answer the path in the order in which they
lie in the document, or the root is of no type. A path that names no member may be answered by
records behind a map that it enters. -/
theorem get2_refuses_iff (env : Env) (h₀ h : Bkv) (root : UInt16) (body : Items)
    (hf : FreshRam env h₀) (hl : Legal .map body)
    (hr : runOk env h₀ (calls (.node (.map, root) body .nil)) = some h)
    (hsize : h.writeOffset ≤ 65535) (hw : WellKeyed (.node (.map, root) body .nil))
    (path : List UInt16) (hne : path ≠ []) (hlow : ∀ k ∈ path, k < bkvArrayKey) (p_val : BkvVal) :
    ∃ r v, bkvValInit (bkvGetHead h) p_val 0 = .ok (r, v) ∧ (root ≤ 0x1FFF → r = bkvOk) ∧
      ∀ (nb_val : Int) (val : Cells BkvVal),
        (∃ val', bkvValGet2 (bkvGetHead h) v (some (path ++ [bkvKeyInvalid])) nb_val val =
          .ok (bkvInvArg, val')) ↔ root ≤ 0x1FFF ∧ ¬Answers body path ∨ 0xC000 ≤ root := by
  by_cases hroot : root ≤ 0x1FFF
  · have hm := root_mapAt hf hl hr hsize hroot hw.2.1 hw.1
    refine ⟨_, _, bkvValInit_map hm.laid hm.inside UInt16.and_le_right p_val, fun _ => rfl,
      fun nb_val val => ?_⟩
    have hhigh : ¬0xC000 ≤ root := by
      rw [UInt16.not_le]
      exact UInt16.lt_of_le_of_lt hroot (by decide)
    obtain ⟨val', hget⟩ := hm.get2_course (v := { p_val with
      type := .object, key := root &&& 0xFFF, priv := 0 }) rfl hl hw.2.1 hne hlow nb_val val
    rw [hget, answers_iff]
    by_cases hc : course body path = .found <;> simp [hc, hroot, hhigh, bkvOk, bkvInvArg]
  · obtain ⟨hz, -⟩ := root_read hf hl hr
    obtain ⟨r, v, hinit, hv⟩ := bkvValInit_head hz p_val
    refine ⟨r, v, hinit, fun h => absurd h hroot, fun nb_val val => ?_⟩
    have hwide := get2_wide hf hl hr (UInt16.not_le.mp hroot) hv (path ++ [bkvKeyInvalid]) nb_val val
    split at hwide
    · rename_i hhigh
      exact ⟨fun _ => .inr hhigh, fun _ => ⟨val, hwide⟩⟩
    · rename_i hhigh
      obtain ⟨e, he⟩ := hwide
      simp [he, hroot, hhigh]

end Lookups

/-- A document of an array, a map with two members and a string, under a root with bit 12. -/
def nestedBody : Items :=
  .node (.array, 1) (.leaf (.elem (.u16 5)) .nil)
    (.node (.map, 2) (.leaf (.keyed 3 (.u32 9)) (.leaf (.keyed 1 (.str [104, 105])) .nil)) .nil)

theorem get2_finds_nested : ∃ h,
    runOk calmEnv ramHandle (calls (.node (.map, 0x1003) nestedBody .nil)) = some h ∧
      ∃ v, bkvValInit (bkvGetHead h) bkvValInitValue 0 = .ok (bkvOk, v) ∧
        ∀ (nb_val : Int) (val : Cells BkvVal), ∃ val',
          bkvValGet2 (bkvGetHead h) v (some ([2, 1] ++ [bkvKeyInvalid])) nb_val val =
            .ok (bkvOk, val') ∧ Fills (bkvGetHead h) 29 (.scalar (.str [104, 105])) (val' 0) := by
  refine ⟨_, rfl, (get2_finds_iff calmEnv ramHandle _ 0x1003 nestedBody ramHandle_fresh ?_ rfl
    (by decide) ?_ [2, 1] 25 _ ?_ bkvValInitValue).mpr (by decide)⟩
  · simp [nestedBody, Legal, Kind.holds, Entry.kind]
  · simp [nestedBody, Searchable, DistinctKeys, memberKeys, ScalarsOnly, Entry.key, Entry.scalar,
      Elem.scalar, Scalar.isDouble]
    decide
  · exact .descend (.node (.array, 1) (.leaf (.elem (.u16 5)) .nil) .nil) 2 .nil
      (.scalar (.leaf (.keyed 3 (.u32 9)) .nil) 1 (.str [104, 105]) .nil)

theorem wide_root_lost : ∃ h,
    runOk calmEnv ramHandle (calls (.node (.map, 0x2000) (.leaf (.keyed 1 (.u16 7)) .nil) .nil)) =
      some h ∧ Searchable (.node (.map, 0x2000) (.leaf (.keyed 1 (.u16 7)) .nil) .nil) ∧
      Locates (.leaf (.keyed 1 (.u16 7)) .nil) [1] 0 (.scalar (.u16 7)) ∧
      ∃ v, bkvValInit (bkvGetHead h) bkvValInitValue 0 = .ok (bkvOk, v) ∧
        bkvValGet2 (bkvGetHead h) v (some ([1] ++ [bkvKeyInvalid])) 1 (fun _ => bkvValInitValue) =
          .error (.keys (-1)) := by
  refine ⟨_, rfl, ?_, .scalar .nil 1 (.u16 7) .nil, _, rfl, rfl⟩
  simp [Searchable, DistinctKeys, memberKeys, Entry.key, Entry.scalar, Scalar.isDouble]
  decide

/-- An empty map, and behind it a member with the key that was to be found in the map. -/
def emptyMapBefore : Items := .node (.map, 1) .nil (.leaf (.keyed 2 (.u16 7)) .nil)

theorem not_locates_nil {path : List UInt16} {o : Nat} {m : Member} : ¬Locates .nil path o m := by
  generalize hf : (.nil : Items) = f
  intro hn
  cases hn with
  | scalar f => cases f <;> cases hf
  | container f => cases f <;> cases hf
  | descend f => cases f <;> cases hf

theorem Locates.leaf {e : Entry} {rest : Items} {path : List UInt16} {o : Nat} {m : Member}
    (hn : Locates (.leaf e rest) path o m) : path = [e.key] ∨ ∃ o', Locates rest path o' m := by
  generalize hg : (.leaf e rest : Items) = g at hn
  cases hn with
  | scalar f key v rest' =>
    cases f with
    | nil =>
      cases hg
      exact Or.inl rfl
    | leaf e' f =>
      cases hg
      exact Or.inr ⟨_, .scalar f key v rest'⟩
    | node l body f => cases hg
  | container f kind key body rest' =>
    cases f with
    | nil => cases hg
    | leaf e' f =>
      cases hg
      exact Or.inr ⟨_, .container f kind key body rest'⟩
    | node l body f => cases hg
  | descend f key rest' hn =>
    cases f with
    | nil => cases hg
    | leaf e' f =>
      cases hg
      exact Or.inr ⟨_, .descend f key rest' hn⟩
    | node l body f => cases hg

theorem Locates.node {l : Kind × UInt16} {body rest : Items} {path : List UInt16} {o : Nat}
    {m : Member} (hn : Locates (.node l body rest) path o m) :
    path = [l.2] ∨ (∃ more o', path = l.2 :: more ∧ Locates body more o' m) ∨
      ∃ o', Locates rest path o' m := by
  generalize hg : (.node l body rest : Items) = g at hn
  cases hn with
  | scalar f key v rest' =>
    cases f with
    | nil => cases hg
    | leaf e f => cases hg
    | node l body f =>
      cases hg
      exact Or.inr (Or.inr ⟨_, .scalar f key v rest'⟩)
  | container f kind key body rest' =>
    cases f with
    | nil =>
      cases hg
      exact Or.inl rfl
    | leaf e f => cases hg
    | node l body f =>
      cases hg
      exact Or.inr (Or.inr ⟨_, .container f kind key _ rest'⟩)
  | descend f key rest' hn =>
    cases f with
    | nil =>
      cases hg
      exact Or.inr (Or.inl ⟨_, _, rfl, hn⟩)
    | leaf e f => cases hg
    | node l body f =>
      cases hg
      exact Or.inr (Or.inr ⟨_, .descend f key rest' hn⟩)

theorem dead_end_answered : (∀ o m, ¬Locates emptyMapBefore [1, 2] o m) ∧
    DistinctKeys emptyMapBefore ∧ WellKeyed (.node (.map, 0) emptyMapBefore .nil) ∧
    ∃ h, runOk calmEnv ramHandle (calls (.node (.map, 0) emptyMapBefore .nil)) = some h ∧
      ∃ v, bkvValInit (bkvGetHead h) bkvValInitValue 0 = .ok (bkvOk, v) ∧
        ∀ (nb_val : Int) (val : Cells BkvVal), ∃ val',
          bkvValGet2 (bkvGetHead h) v (some ([1, 2] ++ [bkvKeyInvalid])) nb_val val =
            .ok (bkvOk, val') := by
  have hkeyed : WellKeyed (.node (.map, 0) emptyMapBefore .nil) := by
    simp [WellKeyed, emptyMapBefore, memberKeys, Entry.key, bkvArrayKey]
  refine ⟨?_, by simp [DistinctKeys, emptyMapBefore, memberKeys, Entry.key, bkvArrayKey], hkeyed, _,
    rfl, ?_⟩
  · intro o m hn
    rcases hn.node with h | ⟨more, o', h, hn⟩ | ⟨o', hn⟩
    · cases h
    · exact not_locates_nil hn
    · rcases hn.leaf with h | ⟨o', hn⟩
      · cases h
      · exact not_locates_nil hn
  · have hl : Legal .map emptyMapBefore := by simp [Legal, emptyMapBefore, Kind.holds, Entry.kind]
    have hr : runOk calmEnv ramHandle (calls (.node (.map, 0) emptyMapBefore .nil)) = some _ := rfl
    have hm := root_mapAt ramHandle_fresh hl hr (by decide) (by decide) hkeyed.2.1 hkeyed.1
    refine ⟨_, bkvValInit_map hm.laid hm.inside UInt16.and_le_right bkvValInitValue,
      fun nb_val val => ?_⟩
    exact hm.get2_course rfl hl hkeyed.2.1 (by simp) (by simp [bkvArrayKey]) nb_val val

theorem get2_refuses_absent : ∃ h,
    runOk calmEnv ramHandle (calls (.node (.map, 0) emptyMapBefore .nil)) = some h ∧
      ∃ r v, bkvValInit (bkvGetHead h) bkvValInitValue 0 = .ok (r, v) ∧ (0 ≤ 0x1FFF → r = bkvOk) ∧
        ∀ (nb_val : Int) (val : Cells BkvVal),
          (∃ val', bkvValGet2 (bkvGetHead h) v (some ([1, 3] ++ [bkvKeyInvalid])) nb_val val =
            .ok (bkvInvArg, val')) ↔
            (0 : UInt16) ≤ 0x1FFF ∧ ¬Answers emptyMapBefore [1, 3] ∨ 0xC000 ≤ (0 : UInt16) :=
  ⟨_, rfl, get2_refuses_iff calmEnv ramHandle _ 0 emptyMapBefore ramHandle_fresh
    (by simp [Legal, emptyMapBefore, Kind.holds, Entry.kind]) rfl (by decide)
    (by simp [WellKeyed, emptyMapBefore, memberKeys, Entry.key, bkvArrayKey]) [1, 3] (by simp)
    (by simp [bkvArrayKey]) bkvValInitValue⟩

end Wtools
