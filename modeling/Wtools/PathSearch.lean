import Wtools.Records
import Wtools.Search

/-!
# Searching along a path

`bkv_val_get2` with a path of several keys. The traversal enters the maps named by the path, leaves
the other maps out by their stored length, and walks through the arrays, whose elements all carry
one reserved key. So nothing in front of the member that is looked for can match or end the walk.
-/

namespace Wtools
open ByteMemory Forest

def memberKeys : Items → List UInt16
  | .nil => []
  | .leaf e rest => e.key :: memberKeys rest
  | .node l _ rest => l.2 :: memberKeys rest

def DistinctKeys (f : Items) : Prop := (memberKeys f).Nodup ∧ ∀ k ∈ memberKeys f, k < bkvArrayKey

def ScalarsOnly : Items → Prop
  | .nil => True
  | .leaf _ rest => ScalarsOnly rest
  | .node _ _ _ => False

def Scalar.isDouble : Scalar → Bool
  | .double _ => true
  | _ => false

/-- Contents of documents whose maps have distinct keys below the reserved ones, whose arrays have
scalars only, and that have no doubles. -/
def Searchable : Items → Prop
  | .nil => True
  | .leaf e rest => e.scalar.isDouble = false ∧ Searchable rest
  | .node (.map, _) body rest => DistinctKeys body ∧ Searchable body ∧ Searchable rest
  | .node (.array, _) body rest => ScalarsOnly body ∧ Searchable body ∧ Searchable rest

/-- Contents of documents whose members have keys below the reserved ones and whose arrays have
scalars only. -/
def WellKeyed : Items → Prop
  | .nil => True
  | .leaf _ rest => WellKeyed rest
  | .node (.map, _) body rest =>
    (∀ k ∈ memberKeys body, k < bkvArrayKey) ∧ WellKeyed body ∧ WellKeyed rest
  | .node (.array, _) body rest => ScalarsOnly body ∧ WellKeyed rest

inductive Member where
  | scalar (v : Scalar)
  | container (kind : Kind) (body : Items)

/-- A path names a member of a map whose record lies at the offset `o` in the contents of the map. -/
inductive Locates : Items → List UInt16 → Nat → Member → Prop
  | scalar (f : Items) (key : UInt16) (v : Scalar) (rest : Items) :
      Locates (f ++ .leaf (.keyed key v) rest) [key] (size f) (.scalar v)
  | container (f : Items) (kind : Kind) (key : UInt16) (body rest : Items) :
      Locates (f ++ .node (kind, key) body rest) [key] (size f) (.container kind body)
  | descend (f : Items) (key : UInt16) {body : Items} (rest : Items) {path : List UInt16} {o : Nat}
      {m : Member} (hn : Locates body path o m) :
      Locates (f ++ .node (.map, key) body rest) (key :: path) (size f + (4 + o)) m

def Kind.valType : Kind → ValType
  | .map => .object
  | .array => .array

/-- The output is the member whose record lies at `off`. Of a wide string only the first quarter is
stored; there is no kind for doubles. -/
def Fills (z : Zone) (off : Nat) : Member → BkvVal → Prop
  | .scalar (.u16 x), v => v.type = .int16 ∧ v.u = .int16 x ∧ v.priv = off
  | .scalar (.u32 x), v => v.type = .int32 ∧ v.u = .int32 x ∧ v.priv = off
  | .scalar (.u64 x), v => v.type = .int64 ∧ v.u = .int64 x ∧ v.priv = off
  | .scalar (.float x), v => v.type = .float ∧ v.u = .f x
  | .scalar (.double _), _ => False
  | .scalar (.boolean b), v => v.type = .boolean ∧ v.u = .b b
  | .scalar (.str s), v => v.type = .string ∧ v.u = .string (off + 4) s.length ∧
      z.slice? (off + 4) s.length = some s
  | .scalar (.wchar s), v => v.type = .string ∧
      v.u = .string (off + 4) (s.length * sizeofWchar) ∧
      ∃ bytes, z.slice? (off + 4) (s.length * sizeofWchar) = some bytes ∧
        (wcharBytes s).take s.length <+: bytes
  | .container kind body, v => v.type = kind.valType ∧ v.priv = off ∧
      (kind = .map → v.u = .object off) ∧
      ∃ key, ByteMemory.Fits z.mem off (enc (.node (kind, key) body .nil))

section Keys

theorem memberKeys_append (f g : Items) : memberKeys (f ++ g) = memberKeys f ++ memberKeys g := by
  induction f with
  | nil => rfl
  | leaf e rest ih => simp [memberKeys, ih]
  | node l body rest _ ih => simp [memberKeys, ih]

theorem searchable_append {f g : Items} : Searchable (f ++ g) ↔ Searchable f ∧ Searchable g := by
  induction f with
  | nil => simp [Searchable]
  | leaf e rest ih => simp only [leaf_append, Searchable, ih, and_assoc]
  | node l body rest _ ih =>
    obtain ⟨kind, key⟩ := l
    cases kind <;> simp only [node_append, Searchable, ih, and_assoc]

theorem legal_append {k : Kind} {f g : Items} : Legal k (f ++ g) ↔ Legal k f ∧ Legal k g := by
  induction f with
  | nil => simp [Legal]
  | leaf e rest ih => simp only [leaf_append, Legal, ih, and_assoc]
  | node l body rest _ ih => simp only [node_append, Legal, ih, and_assoc]

variable {k : UInt16}

theorem hidden_elements {body : Items} (hl : Legal .array body) (hs : ScalarsOnly body)
    (hk : k < bkvArrayKey) : Hidden k body := by
  induction body with
  | nil => trivial
  | leaf e rest ih =>
    refine ⟨?_, ih hl.2 hs⟩
    intro he
    cases e with
    | keyed key v => cases hl.1
    | elem v =>
      rw [← he] at hk
      exact absurd hk (UInt16.lt_irrefl _)
  | node l inner rest _ _ => exact hs.elim

theorem hidden_siblings {f : Items} (hl : Legal .map f) (hs : Searchable f) (hn : k ∉ memberKeys f)
    (hk : k < bkvArrayKey) : Hidden k f := by
  induction f with
  | nil => trivial
  | leaf e rest ih =>
    rw [memberKeys, List.mem_cons, not_or] at hn
    exact ⟨Ne.symm hn.1, ih hl.2 hs.2 hn.2⟩
  | node l body rest _ ih =>
    obtain ⟨kind, key⟩ := l
    rw [memberKeys, List.mem_cons, not_or] at hn
    cases kind with
    | map => exact ⟨Ne.symm hn.1, by simp, ih hl.2.2 hs.2.2 hn.2⟩
    | array => exact ⟨Ne.symm hn.1, fun _ => hidden_elements hl.2.1 hs.1 hk, ih hl.2.2 hs.2.2 hn.2⟩

/-- What stands in front of a member in its map is passed over when its key is looked for. -/
theorem DistinctKeys.hidden {f g : Items} (hd : DistinctKeys (f ++ g)) (hl : Legal .map (f ++ g))
    (hs : Searchable (f ++ g)) (hk : k ∈ memberKeys g) : Hidden k f ∧ k < bkvArrayKey := by
  obtain ⟨hnodup, hlt⟩ := hd
  rw [memberKeys_append] at hnodup hlt
  have hkey : k < bkvArrayKey := hlt k (List.mem_append_right _ hk)
  have hnot : k ∉ memberKeys f := by
    intro hf
    exact (List.nodup_append.mp hnodup).2.2 k hf k hk rfl
  exact ⟨hidden_siblings (legal_append.mp hl).1 (searchable_append.mp hs).1 hnot hkey, hkey⟩

theorem ne_keyInvalid (hk : k < bkvArrayKey) : k ≠ bkvKeyInvalid := by
  rintro rfl
  exact absurd hk (by decide)

theorem Locates.ne_nil {f : Items} {path : List UInt16} {o : Nat} {m : Member}
    (hn : Locates f path o m) : path ≠ [] := by
  cases hn <;> exact List.cons_ne_nil _ _

theorem Locates.keys {f : Items} {path : List UInt16} {o : Nat} {m : Member}
    (hn : Locates f path o m) (hd : DistinctKeys f) (hs : Searchable f) :
    ∀ k ∈ path, k < bkvArrayKey := by
  induction hn with
  | scalar f key v rest =>
    intro k hk
    rw [List.mem_singleton.mp hk]
    exact hd.2 key (by simp [memberKeys_append, memberKeys, Entry.key])
  | container f kind key body rest =>
    intro k hk
    rw [List.mem_singleton.mp hk]
    exact hd.2 key (by simp [memberKeys_append, memberKeys])
  | descend f key rest _ ih =>
    intro k hk
    have hnode := (searchable_append.mp hs).2
    rcases List.mem_cons.mp hk with rfl | hk
    · exact hd.2 k (by simp [memberKeys_append, memberKeys])
    · exact ih hnode.1 hnode.2.1 k hk

end Keys

section Walk
variable {z : Zone} {c : GetCtx} {k : UInt16}

/-- The search of a path after the keys `before`. -/
def seekingFrom (before path : List UInt16) (nb_val : Int) (val : Cells BkvVal) : GetCtx :=
  ⟨some (before ++ (path ++ [bkvKeyInvalid])), nb_val, val, 0, false, before.length, false⟩

theorem searching_from (before : List UInt16) {more : List UInt16} (nb_val : Int)
    (val : Cells BkvVal) (hmore : ∀ k' ∈ more, k' ≠ bkvKeyInvalid) :
    Searching k more.isEmpty (seekingFrom before (k :: more) nb_val val) where
  keys := by simp [seekingFrom]
  inMap := by simp [seekingFrom]
  key := by simp [seekingFrom, GetCtx.key]
  next := by
    cases more with
    | nil => exact ⟨bkvKeyInvalid, by simp [seekingFrom, GetCtx.key]; omega, by simp⟩
    | cons k' more =>
      refine ⟨k', by simp [seekingFrom, GetCtx.key]; omega, ?_⟩
      simpa using hmore k' List.mem_cons_self
  gotIt := rfl

theorem enters_map (before more : List UInt16) (nb_val : Int) (val : Cells BkvVal)
    (hmore : ∀ k' ∈ more, k' ≠ bkvKeyInvalid) (hne : more ≠ []) (p : Nat) :
    visit valGetCallbacks (.mapOpen p k) (seekingFrom before (k :: more) nb_val val) =
      .ok (⟨false, false⟩, seekingFrom (before ++ [k]) more nb_val val) := by
  have hc := searching_from (k := k) before nb_val val hmore
  have hoff : ¬(seekingFrom before (k :: more) nb_val val).keyOffset < 0 := Int.not_lt.mpr hc.inMap
  have hlast : more.isEmpty = false := by simpa using hne
  simp [visit, valGetCallbacks, bkvValGetMapOpen, hoff, hc.found, hlast, Except.map, skips,
    actionNone]
  simp [seekingFrom]

theorem Searching.hit_scalar (hc : Searching k true c) {off : Nat} (deep : Int) {v : Scalar}
    (h : ByteMemory.Fits z.mem off (Entry.keyed k v).pattern)
    (hz : off + (Entry.keyed k v).width ≤ z.size) (hv : v.isDouble = false) :
    ∃ c', visit valGetCallbacks (scalarEvent off deep k v) c = .ok (⟨false, true⟩, c') ∧
      c'.valIsSet = true ∧ Fills z off (.scalar v) (c'.val 0) := by
  have hstop : actionStopLoop ≠ 0 := by decide
  have hfound : c.found k = .ok (some true) := by rw [hc.found, if_pos rfl]
  have hshown := shows_add deep h hz
  have hnumber : ∀ e type u f, valGetCallbacks e c = getNumber type u f k c → e.isMapOpen = false →
      visit valGetCallbacks e c =
        .ok (⟨false, true⟩, c.setVal fun v => f { v with type := type, u := u }) := by
    intro e type u f he hm
    simp [visit, he, getNumber, hc.keys, hfound, Except.map, skips, hm, hstop]
  have hlast : ∀ e set, valGetCallbacks e c = getLast set k c → e.isMapOpen = false →
      visit valGetCallbacks e c = .ok (⟨false, true⟩, c.setVal set) := by
    intro e set he hm
    simp [visit, he, getLast, hfound, Except.map, skips, hm, hstop]
  cases v with
  | u16 x => exact ⟨_, hnumber _ _ _ _ rfl rfl, rfl, by simp [Fills, GetCtx.setVal, lookedUpAt]⟩
  | u32 x => exact ⟨_, hnumber _ _ _ _ rfl rfl, rfl, by simp [Fills, GetCtx.setVal, lookedUpAt]⟩
  | u64 x => exact ⟨_, hnumber _ _ _ _ rfl rfl, rfl, by simp [Fills, GetCtx.setVal, lookedUpAt]⟩
  | float x => exact ⟨_, hnumber _ _ _ _ rfl rfl, rfl, by simp [Fills, GetCtx.setVal]⟩
  | double x => cases hv
  | boolean b => exact ⟨_, hlast _ _ rfl rfl, rfl, by simp [Fills, GetCtx.setVal]⟩
  | str s =>
    simp only [Shows, Entry.key, Entry.scalar, scalarEvent, Event.seen, scalarSeen,
      Seen.str.injEq, true_and] at hshown
    exact ⟨_, hlast _ _ rfl rfl, rfl, by simp [Fills, GetCtx.setVal, hshown]⟩
  | wchar s =>
    obtain ⟨bytes, hseen, -, hstored⟩ := hshown
    simp only [Entry.key, Entry.scalar, scalarEvent, Event.seen, Seen.str.injEq, true_and] at hseen
    exact ⟨_, hlast _ _ rfl rfl, rfl, by simp [Fills, GetCtx.setVal, hseen, hstored]⟩

theorem Searching.hit_container (hc : Searching k true c) {off : Nat} {kind : Kind} {body : Items}
    (h : ByteMemory.Fits z.mem off (enc (.node (kind, k) body .nil))) (cnt : UInt16) :
    ∃ c', visit valGetCallbacks (openEvent off k cnt kind) c = .ok (⟨false, true⟩, c') ∧
      c'.valIsSet = true ∧ Fills z off (.container kind body) (c'.val 0) := by
  cases kind with
  | map =>
    obtain ⟨c', hvis, hset, hval⟩ := hc.hit_map off
    exact ⟨c', hvis, hset, by simp [hval, Kind.valType], by simp [hval], by simp [hval],
      k, h⟩
  | array =>
    have hstop : actionStopLoop ≠ 0 := by decide
    refine ⟨c.setVal fun v => { v with type := .array, u := .array cnt, priv := off }, ?_, rfl, ?_⟩
    · simp [visit, openEvent, valGetCallbacks, bkvValGetArrayOpen, getLast, hc.keys, hc.found,
        Except.map, skips, Event.isMapOpen, hstop]
    · exact ⟨rfl, rfl, by simp, k, h⟩

theorem fits_member {off : Nat} {f : Items} {l : Kind × UInt16} {body rest : Items}
    (h : ByteMemory.Fits z.mem off (enc (f ++ .node l body rest))) :
    ByteMemory.Fits z.mem (off + size f) (enc (.node l body .nil)) := by
  have hsplit : f ++ .node l body rest = f ++ (.node l body .nil ++ rest) := rfl
  rw [hsplit, enc_append, enc_append, fits_append, fits_append, enc_length] at h
  exact h.2.1

/-- The walk of the contents of a map ends at the member that the rest of the path names. -/
theorem Locates.walk {f : Items} {path : List UInt16} {o : Nat} {m : Member}
    (hn : Locates f path o m) (hd : DistinctKeys f) (hl : Legal .map f) (hs : Searchable f)
    (ck cn : Nat → UInt16) (deep : Int)
    {off : Nat} (h : ByteMemory.Fits z.mem off (enc f)) (hz : off + size f ≤ z.size)
    (before : List UInt16) (nb_val : Int) (val : Cells BkvVal) :
    ∃ c', (placed ck cn deep off f).walk (visit valGetCallbacks) (seekingFrom before path nb_val val) =
        .ok (true, c') ∧ c'.valIsSet = true ∧ Fills z (off + o) m (c'.val 0) := by
  induction hn generalizing deep off before with
  | scalar f key v rest =>
    have hc : Searching key true (seekingFrom before [key] nb_val val) :=
      searching_from before nb_val val (List.forall_mem_nil _)
    obtain ⟨hhid, -⟩ := hd.hidden (k := key) hl hs (by simp [memberKeys, Entry.key])
    rw [enc_append, fits_append, enc_length, enc, fits_append] at h
    rw [size_append, size] at hz
    obtain ⟨c', hvis, hset, hfills⟩ := hc.hit_scalar deep h.2.1 (by omega)
      (searchable_append.mp hs).2.1
    refine ⟨c', ?_, hset, hfills⟩
    rw [placed_append, walk_append, hc.miss hhid, Outcome.next_going, placed, Forest.walk]
    simp only [Entry.key, Entry.scalar, hvis]
    rfl
  | container f kind key body rest =>
    have hc : Searching key true (seekingFrom before [key] nb_val val) :=
      searching_from before nb_val val (List.forall_mem_nil _)
    obtain ⟨hhid, -⟩ := hd.hidden (k := key) hl hs (by simp [memberKeys])
    have hnode := fits_member h
    obtain ⟨c', hvis, hset, hfills⟩ := hc.hit_container hnode (cn (off + size f))
    refine ⟨c', ?_, hset, hfills⟩
    rw [placed_append, walk_append, hc.miss hhid, Outcome.next_going, placed, Forest.walk]
    simp only [hvis]
    rfl
  | @descend f key body rest path o m hn ih =>
    have hnode := searchable_append.mp hs
    have hmore : ∀ k' ∈ path, k' ≠ bkvKeyInvalid := by
      intro k' hk'
      exact ne_keyInvalid (hn.keys hnode.2.1 hnode.2.2.1 k' hk')
    obtain ⟨hhid, -⟩ := hd.hidden (k := key) hl hs (by simp [memberKeys])
    have hc := searching_from (k := key) before nb_val val hmore
    have hbody := fits_member h
    simp only [enc, fits_append, header_length] at hbody
    rw [size_append, size] at hz
    obtain ⟨c', hwalk, hset, hfills⟩ := ih hnode.2.1 (legal_append.mp hl).2.2.1 hnode.2.2.1 (deep + 1)
      hbody.2.1 (by dsimp only at hz; omega) (before ++ [key])
    refine ⟨c', ?_, hset, ?_⟩
    · rw [placed_append, walk_append, hc.miss hhid, Outcome.next_going, placed, Forest.walk]
      simp only [openEvent, enters_map before path nb_val val hmore hn.ne_nil, enter]
      rw [hwalk]
      rfl
    · rw [Kind.openWidth, Nat.add_assoc, Nat.add_assoc] at hfills
      exact hfills

end Walk

theorem ScalarsOnly.openings {f : Items} (hs : ScalarsOnly f) (k : Kind) (key : UInt16) :
    .opening k key ∉ calls f := by
  induction f with
  | nil => simp
  | leaf e rest ih => simpa using ih hs
  | node l body rest _ _ => exact hs.elim

theorem WellKeyed.openings {f : Items} (hw : WellKeyed f) (hk : ∀ k ∈ memberKeys f, k ≤ 0xFFF)
    (k : Kind) (key : UInt16) (hc : .opening k key ∈ calls f) : key ≤ 0xFFF := by
  have hlow : ∀ {k : UInt16}, k < bkvArrayKey → k ≤ 0xFFF := by
    intro k hk
    exact UInt16.le_trans (UInt16.le_of_lt hk) (by decide)
  induction f with
  | nil => simp at hc
  | leaf e rest ih =>
    rw [memberKeys, List.forall_mem_cons] at hk
    exact ih hw hk.2 (by simpa using hc)
  | node l body rest ihb ih =>
    obtain ⟨kind, key'⟩ := l
    rw [memberKeys, List.forall_mem_cons] at hk
    simp only [calls_node, List.mem_cons, List.mem_append, Call.opening.injEq, reduceCtorEq,
      false_or] at hc
    rcases hc with ⟨-, rfl⟩ | hc | hc
    · exact hk.1
    · cases kind with
      | map => exact ihb hw.2.1 (fun k hm => hlow (hw.1 k hm)) hc
      | array => exact absurd hc (hw.1.openings k key)
    · cases kind with
      | map => exact ih hw.2.2 hk.2 hc
      | array => exact ih hw.2 hk.2 hc

theorem Searchable.wellKeyed {f : Items} (hs : Searchable f) : WellKeyed f := by
  induction f with
  | nil => trivial
  | leaf e rest ih => exact ih hs.2
  | node l body rest ihb ih =>
    obtain ⟨kind, key⟩ := l
    cases kind with
    | map => exact ⟨hs.1.2, ihb hs.2.1, ih hs.2.2⟩
    | array => exact ⟨hs.1, ih hs.2.2⟩

section Lookup
variable {z : Zone} {key : UInt16} {f g : Items}

/-- A lookup of a member comes to its end before what follows the members. -/
theorem MapAt.get2_member (hm : MapAt z 0 key (f ++ g)) {v : BkvVal} (hv : v.priv = 0)
    (hd : DistinctKeys f) (hl : Legal .map f) (hs : Searchable f) {path : List UInt16} {o : Nat}
    {m : Member} (hn : Locates f path o m) (nb_val : Int) (val : Cells BkvVal) :
    ∃ val', bkvValGet2 z v (some (path ++ [bkvKeyInvalid])) nb_val val = .ok (bkvOk, val') ∧
      Fills z (4 + o) m (val' 0) := by
  have hlaid := hm.laid
  have hin := hm.inside
  simp only [enc, fits_append, header_length, enc_append] at hlaid
  simp only [size, size_append, Kind.openWidth] at hin
  have hbody : ByteMemory.Fits z.mem 4 (enc f) := hlaid.2.1.1
  obtain ⟨c', hwalk, hset, hfills⟩ :=
    hn.walk hd hl hs (closeKeys z.mem) (counts z.mem) 1 hbody (by omega) [] nb_val val
  refine ⟨c'.val, ?_, hfills⟩
  rw [hm.get2 hv, Nat.zero_add, placed_append, walk_append]
  replace hwalk : (placed (closeKeys z.mem) (counts z.mem) 1 4 f).walk (visit valGetCallbacks)
    ⟨some (path ++ [bkvKeyInvalid]), nb_val, val, 0, false, 0, false⟩ = _ := hwalk
  rw [hwalk]
  simp [Outcome.next, Except.map, hset]

end Lookup

end Wtools
