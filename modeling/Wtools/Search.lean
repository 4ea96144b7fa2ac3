import Wtools.Traverse

/-!
# Searching a map for one key

`bkv_val_get2` with a path of one key, on a document. The traversal leaves the maps out
and goes through the arrays, so it comes to the first record with the key among the
members of the map and the contents of its arrays.
-/

namespace Wtools
open ByteMemory Forest

/-- A search that has come to a map: it looks there for `k`, and `last` tells whether the path
ends with that key. -/
structure Searching (k : UInt16) (last : Bool) (c : GetCtx) : Prop where
  keys : c.keys ≠ none
  inMap : 0 ≤ c.keyOffset
  key : c.key c.keyOffset = .ok k
  next : ∃ k', c.key (c.keyOffset + 1) = .ok k' ∧ decide (k' = bkvKeyInvalid) = last
  gotIt : c.gotIt = false

/-- A search for one key, inside the map it was started on. -/
structure Seeks (k : UInt16) (c : GetCtx) : Prop where
  keys : c.keys = some [k, bkvKeyInvalid]
  keyOffset : c.keyOffset = 0
  gotIt : c.gotIt = false

/-- The key a callback is given, but for the closing ones. -/
def Event.key? : Event → Option UInt16
  | .mapOpen _ key | .arrayOpen _ _ key | .uint16 _ _ key _ | .uint32 _ _ key _ | .uint64 _ _ key _
  | .str _ key _ _ | .float _ key _ | .double _ key _ | .boolean _ key _ => some key
  | .mapClose _ | .arrayClose => none

variable {k : UInt16} {c : GetCtx} {last : Bool}

theorem Searching.found (hc : Searching k last c) (key : UInt16) :
    c.found key = .ok (if key = k then some last else none) := by
  obtain ⟨k', hnext, hlast⟩ := hc.next
  rw [GetCtx.found, hc.key, ok_bind]
  split
  · rw [hnext, ok_bind, hlast]
    rfl
  · rfl

theorem Seeks.searching (hc : Seeks k c) : Searching k true c where
  keys := by simp [hc.keys]
  inMap := by simp [hc.keyOffset]
  key := by simp [GetCtx.key, hc.keys, hc.keyOffset]
  next := ⟨bkvKeyInvalid, by simp [GetCtx.key, hc.keys, hc.keyOffset], decide_eq_true rfl⟩
  gotIt := hc.gotIt

theorem Searching.miss_number (hc : Searching k last c) {key : UInt16} (hk : key ≠ k)
    (type : ValType)
    (u : ValU) (f : BkvVal → BkvVal) : getNumber type u f key c = .ok (actionNone, c) := by
  simp [getNumber, hc.keys, hc.found, hk]

theorem Searching.miss_last (hc : Searching k last c) {key : UInt16} (hk : key ≠ k)
    (f : BkvVal → BkvVal) : getLast f key c = .ok (actionNone, c) := by
  simp [getLast, hc.found, hk]

/-- A record with another key is passed over, a map with its contents. -/
theorem Searching.pass (hc : Searching k last c) {e : Event} (he : e.key? ≠ some k) :
    visit valGetCallbacks e c = .ok (⟨e.isMapOpen, false⟩, c) := by
  have hcb : valGetCallbacks e c =
      .ok (if e.isMapOpen then actionGotoEndMap else actionNone, c) := by
    have hne : ∀ key, e.key? = some key → key ≠ k := fun key hkey h => he (h ▸ hkey)
    cases e with
    | mapClose key => rfl
    | arrayClose => rfl
    | mapOpen p key =>
      have hoff : ¬c.keyOffset < 0 := Int.not_lt.mpr hc.inMap
      simp [valGetCallbacks, bkvValGetMapOpen, hoff, hc.found, hne key rfl, hc.gotIt,
        Event.isMapOpen]
    | arrayOpen p len key =>
      rw [valGetCallbacks, bkvValGetArrayOpen, if_neg hc.keys]
      exact hc.miss_last (hne key rfl) _
    | uint16 p deep key v => exact hc.miss_number (hne key rfl) _ _ _
    | uint32 p deep key v => exact hc.miss_number (hne key rfl) _ _ _
    | uint64 p deep key v => exact hc.miss_number (hne key rfl) _ _ _
    | float p key v => exact hc.miss_number (hne key rfl) _ _ _
    | str p key s len => exact hc.miss_last (hne key rfl) _
    | double p key v => exact hc.miss_last (hne key rfl) _
    | boolean p key v => exact hc.miss_last (hne key rfl) _
  have hgoto : actionGotoEndMap ≠ 0 := by decide
  have hstop : actionGotoEndMap &&& actionStopLoop = 0 := by decide
  rw [visit, hcb]
  cases hm : e.isMapOpen <;> simp [Except.map, skips, hm, hgoto, hstop, actionNone]

/-- No record that a search comes to has the key. -/
def Hidden (k : UInt16) : Items → Prop
  | .nil => True
  | .leaf e rest => e.key ≠ k ∧ Hidden k rest
  | .node l body rest => l.2 ≠ k ∧ (l.1 = .array → Hidden k body) ∧ Hidden k rest

theorem scalarEvent_key (off : Nat) (deep : Int) (key : UInt16) (v : Scalar) :
    (scalarEvent off deep key v).key? = some key := by
  cases v <;> rfl

theorem Searching.miss (hc : Searching k last c) {ck cn : Nat → UInt16} {f : Items}
    (hf : Hidden k f) (deep : Int) (off : Nat) :
    (placed ck cn deep off f).walk (visit valGetCallbacks) c = .ok (false, c) := by
  induction f generalizing deep off with
  | nil => rfl
  | leaf e rest ih =>
    rw [placed, walk, hc.pass (by simpa [scalarEvent_key] using hf.1)]
    exact ih hf.2 _ _
  | node l body rest ihb ih =>
    obtain ⟨kd, key⟩ := l
    obtain ⟨hk, hb, hr⟩ := hf
    have hopen : (openEvent off key (cn off) kd).key? ≠ some k := by
      cases kd <;> simpa [openEvent, Event.key?] using hk
    have hclose := fun o => hc.pass (e := closeEvent o kd)
      (by cases kd <;> simp [closeEvent, Event.key?])
    rw [placed, walk, hc.pass hopen]
    cases kd with
    | map => exact ih hr _ _
    | array =>
      simp only [enter, openEvent, Event.isMapOpen, ihb (hb rfl), hclose, Outcome.next_going,
        visited_ok, Bool.false_eq_true, if_false]
      exact ih hr _ _

theorem Searching.hit_str (hc : Searching k true c) (p str len : Nat) :
    visit valGetCallbacks (.str p k str len) c = .ok (⟨false, true⟩,
      c.setVal fun v => { v with type := .string, u := .string str len }) := by
  have hstop : actionStopLoop ≠ 0 := by decide
  simp [visit, valGetCallbacks, bkvValGetStr, getLast, hc.found, Except.map, skips, Event.isMapOpen,
    hstop]

theorem Searching.hit_map (hc : Searching k true c) (p : Nat) :
    ∃ c', visit valGetCallbacks (.mapOpen p k) c = .ok (⟨false, true⟩, c') ∧ c'.valIsSet = true ∧
      c'.val 0 = { c.val 0 with type := .object, u := .object p, priv := p } := by
  have hoff : ¬c.keyOffset < 0 := Int.not_lt.mpr hc.inMap
  have hstop : actionStopLoop ≠ 0 := by decide
  have hgoto : actionStopLoop &&& actionGotoEndMap = 0 := by decide
  refine ⟨{ c with gotIt := true, keyOffset := c.keyOffset + 1 }.setVal
    fun v => { v with type := .object, u := .object p, priv := p }, ?_, rfl, ?_⟩
  · simp [visit, valGetCallbacks, bkvValGetMapOpen, hoff, hc.found, hc.gotIt, Except.map, skips,
      Event.isMapOpen, hstop, hgoto]
  · simp [GetCtx.setVal]

/-- A map of the document that lies at an offset of a zone. -/
structure MapAt (z : Zone) (off : Nat) (key : UInt16) (body : Items) : Prop where
  laid : ByteMemory.Fits z.mem off (enc (.node (.map, key) body .nil))
  inside : off + size (.node (.map, key) body .nil) ≤ z.size
  near : z.size < off + 2 ^ 31
  fitting : ∀ c ∈ calls (.node (.map, key) body .nil), c.Fits
  small : size body ≤ 65535

variable {z : Zone} {off : Nat} {key : UInt16} {body : Items}

theorem mapAt_head {h : Bkv} (hfit : ByteMemory.Fits h.ptr 0 (enc (.node (.map, key) body .nil)))
    (hw : h.writeOffset = size (.node (.map, key) body .nil)) (hsize : h.writeOffset ≤ 65535)
    (hcs : ∀ c ∈ calls (.node (.map, key) body .nil), c.Fits) :
    MapAt (bkvGetHead h) 0 key body := by
  have hz : (bkvGetHead h).size = h.writeOffset := rfl
  refine ⟨hfit, by omega, by omega, hcs, ?_⟩
  rw [size] at hw
  omega

theorem MapAt.get2 (hm : MapAt z off key body) {v : BkvVal} (hv : v.priv = off) (keys : List UInt16)
    (nb_val : Int) (val : Cells BkvVal) :
    bkvValGet2 z v (some keys) nb_val val =
      ((placed (closeKeys z.mem) (counts z.mem) 1 (off + 4) body).walk (visit valGetCallbacks)
        ⟨some keys, nb_val, val, 0, false, 0, false⟩).map fun p =>
          (if p.2.valIsSet then bkvOk else bkvInvArg, p.2.val) := by
  have hopen : visit valGetCallbacks (.mapOpen off key)
      ⟨some keys, nb_val, val, 0, false, -1, false⟩ =
        .ok (⟨false, false⟩, ⟨some keys, nb_val, val, 0, false, 0, false⟩) := by
    simp [visit, valGetCallbacks, bkvValGetMapOpen, Except.map, skips, actionNone]
  have hclose : ∀ key c, visited (visit valGetCallbacks (.mapClose key) c) = .ok (false, c) := by
    simp [visit, valGetCallbacks, Except.map, actionNone]
  have hkept : ∀ r s', valGetCallbacks (.mapOpen off key)
      ⟨some keys, nb_val, val, 0, false, -1, false⟩ = .ok (r, s') → r &&& actionGotoEndMap = 0 := by
    intro r s' hcb
    cases hcb
    rfl
  rw [bkvValGet2, if_neg (by simp), valForeach_eq_walk hv hm.laid hm.inside hm.near hm.fitting
    (.inl hm.small) hkept, placed, walk]
  simp only [openEvent, closeEvent, Kind.openWidth, hopen, enter, hclose, placed, walk_nil,
    Outcome.next_done, Bool.false_eq_true, if_false]
  rw [show (0 : Int) + 1 = 1 from rfl]
  cases (placed (closeKeys z.mem) (counts z.mem) 1 (off + 4) body).walk (visit valGetCallbacks)
    ⟨some keys, nb_val, val, 0, false, 0, false⟩ <;> rfl

theorem seeks_start (k : UInt16) (val : Cells BkvVal) :
    Seeks k ⟨some [k, bkvKeyInvalid], 1, val, 0, false, 0, false⟩ := ⟨rfl, rfl, rfl⟩

theorem MapAt.get2_miss (hm : MapAt z off key body) {v : BkvVal} (hv : v.priv = off) {k : UInt16}
    (hk : Hidden k body) (val : Cells BkvVal) :
    bkvValGet2 z v (some [k, bkvKeyInvalid]) 1 val = .ok (bkvInvArg, val) := by
  rw [hm.get2 hv, (seeks_start k val).searching.miss hk]
  rfl

theorem MapAt.get2_str {f rest : Items} {k : UInt16} {w : List UInt8}
    (hm : MapAt z off key (f ++ .leaf (.keyed k (.str w)) rest)) {v : BkvVal} (hv : v.priv = off)
    (hk : Hidden k f) (val : Cells BkvVal) :
    ∃ val', bkvValGet2 z v (some [k, bkvKeyInvalid]) 1 val = .ok (bkvOk, val') ∧
      (val' 0).u = .string (off + 4 + size f + 4) w.length ∧
      z.slice? (off + 4 + size f + 4) w.length = some w := by
  rw [hm.get2 hv, placed_append, walk_append, (seeks_start k val).searching.miss hk,
    Outcome.next_going, placed, walk]
  simp only [Entry.key, Entry.scalar, scalarEvent]
  rw [(seeks_start k val).searching.hit_str]
  refine ⟨_, rfl, by simp [GetCtx.setVal], ?_⟩
  have hfit := hm.laid
  have hz := hm.inside
  simp only [enc, enc_append, fits_append, header_length, enc_length, Kind.openWidth, Entry.pattern,
    fits_known, Entry.bytes, Entry.scalar, Scalar.payload, holds_append, setKey_length,
    cpuToLe16_length] at hfit
  simp only [size, size_append, Kind.openWidth, Entry.width, Entry.bytes, Entry.scalar,
    Scalar.payload, List.length_append, setKey_length, cpuToLe16_length] at hz
  obtain ⟨-, ⟨-, ⟨⟨-, -, hw⟩, -⟩, -⟩, -⟩ := hfit
  rw [Nat.add_assoc _ 2 2] at hw
  exact Zone.slice?_of_holds hw rfl (by omega)

theorem MapAt.get2_map {f inner rest : Items} {k : UInt16}
    (hm : MapAt z off key (f ++ .node (.map, k) inner rest)) {v : BkvVal} (hv : v.priv = off)
    (hk : Hidden k f) (val : Cells BkvVal) :
    ∃ val', bkvValGet2 z v (some [k, bkvKeyInvalid]) 1 val = .ok (bkvOk, val') ∧
      val' 0 = { val 0 with
        type := .object, u := .object (off + 4 + size f), priv := off + 4 + size f } := by
  obtain ⟨c', hvis, hset, hval⟩ := (seeks_start k val).searching.hit_map (off + 4 + size f)
  rw [hm.get2 hv, placed_append, walk_append, (seeks_start k val).searching.miss hk,
    Outcome.next_going, placed, walk]
  simp only [openEvent]
  rw [hvis]
  refine ⟨c'.val, ?_, hval⟩
  simp [enter, Except.map, hset]

end Wtools
