import Wtools.StoredKeys

/-!
# The indices of the names

The reader counts the names in 16 bits and gives each one the number it has come to. The
dictionary refuses a number that does not fit 12 bits, but the parser goes on all the same, and
nobody keeps the numbers apart that have a meaning of their own.
-/

namespace Wtools
open ByteMemory Forest

variable {env : Env} {heap : Heap} {float : List UInt8 → UInt32} {j : Json .map}

/-- The index for the value of each name, as the names come. -/
def indicesGiven (env : Env) (float : List UInt8 → UInt32) :
    List JsonEvent → FromJsonCtx → Except KeyFault (List UInt16)
  | [], _ => .ok []
  | e :: es, c => do
    let (l_ret, c) ← jsonCallback env float e c
    let given := if e.name?.isSome then [c.index] else []
    if l_ret = 0 then return given
    let rest ← indicesGiven env float es c
    return given ++ rest

/-- The indices that `bkv_from_json` gives out. -/
def fromJsonIndices (env : Env) (heap : Heap) (float : List UInt8 → UInt32) (dico_type : DicoType)
    (text : List JsonEvent) : Except KeyFault (List UInt16) := do
  match bkvCreate env 0 { bkvCreateInit with createType := .workInRam } with
  | (_, none) => return []
  | (_, some data) =>
    let (_, dico) ← bkvDicoCreate env 1 heap dico_type
    indicesGiven env float text ⟨data, dico, 0, false, 1, env.uninitKey⟩

/-- The keys with a meaning of their own. -/
def reservedKeys : List UInt16 := [bkvNoKey, bkvArrayKey, bkvDicoKey, bkvKeyInvalid]

/-- What the indices of the names of a text should be: distinct, not reserved, those under which the
document has the values of the names, and each with one record in the dictionary of the document,
which holds the name. -/
structure NamesIndexed (float : List UInt8 → UInt32) (h : Bkv) (ks : List UInt16) (j : Json .map) :
    Prop where
  distinct : ks.Nodup
  unreserved : ∀ k ∈ ks, k ∉ reservedKeys
  document : ∃ key data recs,
    HoldsDocument h (calls (.node (.map, key)
      (data ++ .node (.map, bkvDicoKey) (dictionary recs) .nil) .nil)) ∧
    StoredUnder float bkvNoKey ks j.events (calls data) ∧
    ∀ p ∈ ks.zip j.names, recs.filter (fun q => q.1 = p.1) = [p] ∧
      (UInt16.ofNat p.2.length).toNat = p.2.length

section Numbered
variable {n : Nat} {ws : List (List UInt8)}

theorem numbered_length : (numbered n ws).length = ws.length := by
  induction ws generalizing n with
  | nil => rfl
  | cons w ws ih => exact congrArg Nat.succ ih

theorem numbered_snd : (numbered n ws).map Prod.snd = ws := by
  induction ws generalizing n with
  | nil => rfl
  | cons w ws ih => exact congrArg (w :: ·) ih

theorem numbered_zip : ((numbered n ws).map Prod.fst).zip ws = numbered n ws := by
  induction ws generalizing n with
  | nil => rfl
  | cons w ws ih => exact congrArg ((directKey (n + 1), w) :: ·) ih

theorem numbered_range (hn : n + ws.length ≤ 4091) :
    ∀ p ∈ numbered n ws, n + 2 ≤ p.1.toNat ∧ p.1.toNat ≤ n + ws.length + 1 := by
  induction ws generalizing n with
  | nil => simp [numbered]
  | cons w ws ih =>
    rw [List.length_cons] at hn
    rw [numbered, List.forall_mem_cons, List.length_cons, directKey_toNat (by omega)]
    refine ⟨⟨by omega, by omega⟩, ?_⟩
    intro p hp
    have := ih (n := n + 1) (by omega) p hp
    omega

theorem numbered_nodup (hn : n + ws.length ≤ 4091) : ((numbered n ws).map Prod.fst).Nodup := by
  induction ws generalizing n with
  | nil => exact List.nodup_nil
  | cons w ws ih =>
    rw [List.length_cons] at hn
    rw [numbered, List.map_cons, List.nodup_cons]
    refine ⟨?_, ih (by omega)⟩
    intro hmem
    obtain ⟨p, hp, hkey⟩ := List.mem_map.mp hmem
    have hrange := numbered_range (n := n + 1) (by omega) p hp
    dsimp only at hkey
    rw [hkey, directKey_toNat (by omega)] at hrange
    omega

theorem numbered_unreserved (hn : n + ws.length ≤ 4091) :
    ∀ k ∈ (numbered n ws).map Prod.fst, k ∉ reservedKeys := by
  intro k hk
  obtain ⟨p, hp, rfl⟩ := List.mem_map.mp hk
  have hrange := numbered_range hn p hp
  have hvalues : ∀ k ∈ reservedKeys, k.toNat = 0 ∨ 4093 ≤ k.toNat := by
    simp [reservedKeys, bkvNoKey, bkvArrayKey, bkvDicoKey, bkvKeyInvalid]
  intro hreserved
  have := hvalues _ hreserved
  omega

/-- The 4092nd name is given the key of the elements of arrays. -/
theorem arrayKey_numbered (hn : 4091 < ws.length) :
    bkvArrayKey ∈ (numbered 0 ws).map Prod.fst := by
  have hsplit := numbered_append 0 (ws.take 4091) (ws.drop 4091)
  rw [List.take_append_drop, List.length_take, Nat.min_eq_left (by omega)] at hsplit
  obtain ⟨w, rest, hrest⟩ := List.exists_cons_of_length_pos (l := ws.drop 4091) (by simp; omega)
  rw [hsplit, hrest, List.map_append, List.mem_append]
  exact .inr (.head _)

theorem filter_key {recs : List (UInt16 × List UInt8)} (hnd : (recs.map Prod.fst).Nodup)
    {p : UInt16 × List UInt8} (hp : p ∈ recs) : recs.filter (fun q => q.1 = p.1) = [p] := by
  induction recs with
  | nil => cases hp
  | cons q recs ih =>
    rw [List.map_cons, List.nodup_cons] at hnd
    obtain ⟨hq, hnd⟩ := hnd
    rw [List.mem_cons] at hp
    rcases hp with rfl | hp
    · rw [List.filter_cons_of_pos (by simp), List.filter_eq_nil_iff.mpr]
      intro q' hq' hkey
      exact hq (List.mem_map.mpr ⟨q', hq', by simpa using hkey⟩)
    · have hne : q.1 ≠ p.1 := by
        intro hkey
        exact hq (List.mem_map.mpr ⟨p, hp, hkey.symm⟩)
      rw [List.filter_cons_of_neg (by simpa using hne), ih hnd hp]

end Numbered

section Reader
variable {c c' : FromJsonCtx} {ks s : List Kind} {ws : List (List UInt8)} {es : List JsonEvent}

theorem Counting.indices (hc : Counting c ks s ws) {q : Place}
    (hp : places (ks, ws.length) es = some q) {given : List UInt16}
    (h : indicesGiven env float (es ++ [.endMap]) c = .ok given) :
    given = (numbered ws.length (es.filterMap JsonEvent.name?)).map Prod.fst := by
  induction es generalizing c ks s ws given with
  | nil =>
    obtain ⟨⟨r, c₁⟩, -, h⟩ := bind_ok h
    dsimp only at h
    split at h <;> cases h <;> rfl
  | cons e es ih =>
    rw [places] at hp
    obtain ⟨⟨ks₁, n₁⟩, hplace, hp⟩ := Option.bind_eq_some_iff.mp hp
    obtain ⟨⟨r, c₁⟩, hcall, h⟩ := bind_ok h
    obtain ⟨hr, rfl, hc₁⟩ := hc.step hplace hcall
    dsimp only at h
    rw [if_neg hr] at h
    obtain ⟨rest, hrest, h⟩ := bind_ok h
    have hgiven := ih hc₁ hp hrest
    cases h
    cases hname : e.name? with
    | none =>
      rw [hname, Option.toList_none, List.append_nil] at hgiven
      rw [List.filterMap_cons_none hname]
      exact hgiven
    | some w =>
      rw [hname, Option.toList_some] at hgiven hc₁
      have hindex := hc₁.index_eq (by simp)
      rw [List.length_append, List.length_singleton] at hgiven hindex
      rw [List.filterMap_cons_some hname, numbered, List.map_cons, ← hgiven, ← hindex]
      rfl

end Reader

section Direct
variable {c : FromJsonCtx} {h₀ : Bkv}

theorem direct_indices (env : Env) (float : List UInt8 → UInt32)
    (hd : c.dicoHandle = some (.direct h₀)) (es : List JsonEvent) :
    ∃ given, indicesGiven env float es c = .ok given := by
  induction es generalizing c h₀ with
  | nil => exact ⟨_, rfl⟩
  | cons e es ih =>
    obtain ⟨r, c₁, h₁, hcall, hd₁⟩ := direct_callback env float hd e
    obtain ⟨rest, hrest⟩ := ih hd₁
    rw [indicesGiven, hcall, ok_bind]
    dsimp only
    split
    · exact ⟨_, rfl⟩
    · exact ⟨_, by rw [hrest, ok_bind]; rfl⟩

/-- The indices are the numbers of the names, however many there are. -/
theorem fromJson_indices (heap : Heap) (float : List UInt8 → UInt32) (hcr : Creates env)
    (j : Json .map) :
    fromJsonIndices env heap float .direct j.text = .ok ((numbered 0 j.names).map Prod.fst) := by
  obtain ⟨h₀, hcreate, hs⟩ := direct_created hcr heap
  replace hs : Sim h₀ (.inside ⟨.map, bkvDicoKey, dictionary []⟩ []) := hs
  have htaking : DicoTaking [] .direct (.direct h₀) := .direct hs (by simp) fun _ => rfl
  obtain ⟨given, hgiven⟩ :=
    direct_indices env float (show (startCtx env (.direct h₀)).dicoHandle = _ from rfl) j.text
  rw [fromJsonIndices, hcr.create]
  simp only [hcreate, ok_bind]
  change indicesGiven env float j.text (startCtx env (.direct h₀)) = _
  rw [hgiven]
  rw [Json.text, indicesGiven] at hgiven
  obtain ⟨⟨r, c⟩, hcall, hgiven⟩ := bind_ok hgiven
  obtain ⟨hr, hparsing⟩ := Parsing.begin hcr htaking hcall
  dsimp only at hgiven
  rw [if_neg hr] at hgiven
  obtain ⟨rest, hrest, hgiven⟩ := bind_ok hgiven
  have hcounting : Counting c [] [.map] [] := ⟨hparsing, by simp⟩
  have hnumbers := hcounting.indices (places_contents j (by simp)) hrest
  cases hgiven
  rw [hnumbers, events_names]
  rfl

theorem direct_success (heap : Heap) (float : List UInt8 → UInt32) (hg : Granted env)
    (j : Json .map) : ∃ h, bkvFromJson env heap float .direct j.text = .ok (bkvOk, some h) := by
  obtain ⟨x, hrun⟩ := direct_returns heap float hg.creates j.text
  rcases fromJson_cases List.prefix_rfl (.inl rfl) hrun with ⟨-, hno⟩ | ⟨-, h₀, a, recs, hready, rfl⟩
  · exact hno.elim (absurd hg.creates) (by simp)
  · obtain ⟨h, hx⟩ := hready.succeeds hg.realloc (held_text j)
    exact ⟨h, hrun.trans (congrArg _ hx)⟩

/-- What a success leaves: the records of the text, and behind them those of the dictionary. -/
theorem direct_stored (hcr : Creates env) (hlow : j.names.length ≤ 4091) {h : Bkv}
    (hrun : bkvFromJson env heap float .direct j.text = .ok (bkvOk, some h)) :
    ∃ data, Sim h (.complete bkvNoKey
        (data ++ .node (.map, bkvDicoKey) (dictionary (numbered 0 j.names)) .nil)) ∧
      StoredUnder float bkvNoKey ((numbered 0 j.names).map Prod.fst) j.events (calls data) := by
  rcases bkvFromJson_created hcr hrun with ⟨hno, -⟩ | ⟨d₀, ok, c, -, htaking, hparse, -, hend⟩
  · exact absurd rfl hno
  · obtain ⟨rfl, hstopped⟩ := stopped_of_parse hcr htaking List.prefix_rfl (by simp [Json.text]) hparse
    obtain ⟨d, hd, htaking'⟩ := hstopped.dico
    obtain ⟨⟨r, o⟩, hdestroy, hx⟩ := hend rfl d hd
    obtain ⟨rfl, a, recs, rfl, ha, -, hrecs⟩ := htaking'.destroyed hcr (.inl rfl) hdestroy
    rw [text_names] at hrecs
    rw [hrecs rfl hlow] at ha
    obtain ⟨data, hs, hstored⟩ := text_stored hcr htaking hlow hparse
    exact ⟨data, (hs.spliced ha hx.symm).2.1 rfl, hstored⟩

end Direct

/-- The reader stays inside its stacks, and the indices of the names are distinct, not reserved,
those of the records and in the dictionary, if and only if there are at most 4091 names, each can be
a string of the format, and at most 32 containers are held open at a time. -/
theorem names_indexed_iff (env : Env) (hg : Granted env) (heap : Heap) (float : List UInt8 → UInt32)
    (j : Json .map) :
    (StacksInside env heap float j.text ∧
      ∀ h, bkvFromJson env heap float .direct j.text = .ok (bkvOk, some h) →
        ∀ ks, fromJsonIndices env heap float .direct j.text = .ok ks → NamesIndexed float h ks j) ↔
    j.names.length ≤ 4091 ∧ (∀ w ∈ j.names, w.length ≤ 65535) ∧ Shallow j.text := by
  have hks := fromJson_indices heap float hg.creates j
  rw [stacksInside_iff hg.creates]
  constructor
  · rintro ⟨hshallow, hall⟩
    obtain ⟨h, hrun⟩ := direct_success heap float hg j
    have hindexed := hall h hrun _ hks
    refine ⟨?_, ?_, hshallow⟩
    · by_contra hmany
      exact hindexed.unreserved _ (arrayKey_numbered (by omega)) (by decide)
    · intro w hw
      obtain ⟨p, hp, rfl⟩ : ∃ p ∈ numbered 0 j.names, p.2 = w := by
        rwa [← List.mem_map, numbered_snd]
      obtain ⟨key, data, recs, -, -, hrecs⟩ := hindexed.document
      rw [numbered_zip] at hrecs
      have hlen := (hrecs p hp).2
      have := (UInt16.ofNat p.2.length).toNat_lt
      omega
  · rintro ⟨hn, hlen, hshallow⟩
    refine ⟨hshallow, fun h hrun ks hks' => ?_⟩
    rw [hks] at hks'
    cases hks'
    obtain ⟨data, hs, hstored⟩ := direct_stored hg.creates hn hrun
    have hle : ∀ p ∈ numbered 0 j.names, p.1 ≤ 0xFFF := by
      intro p hp
      have hrange := numbered_range (by omega) p hp
      rw [UInt16.le_iff_toNat_le]
      change _ ≤ 4095
      omega
    have hdata := hstored.within (by decide) (List.forall_mem_map.mpr hle)
    refine ⟨numbered_nodup (by omega), numbered_unreserved (by omega), bkvNoKey, data,
      numbered 0 j.names, hs.holdsDocument ?_, hstored, ?_⟩
    · simp only [calls_node, calls_append, calls_nil, List.forall_mem_cons, List.forall_mem_append]
      exact ⟨(by decide : bkvNoKey ≤ 0xFFF), ⟨hdata, (by decide : bkvDicoKey ≤ 0xFFF),
        dictionary_within hle, trivial, by simp⟩, trivial, by simp⟩
    · rw [numbered_zip]
      intro p hp
      refine ⟨filter_key (numbered_nodup (by omega)) hp, ?_⟩
      have hw : p.2 ∈ j.names := by
        have hmem := List.mem_map_of_mem (f := Prod.snd) hp
        rwa [numbered_snd] at hmem
      have := hlen _ hw
      rw [UInt16.toNat_ofNat', Nat.mod_eq_of_lt (by omega)]

/-- The object `{"a":{"b":7},"c":[true]}`. -/
def threeNames : Json .map :=
  .memberIn [0x61] .map (.member [0x62] (.number [0x37]) .nil)
    (.memberIn [0x63] .array (.element (.boolean true) .nil) .nil)

theorem names_indexed_iff_three :
    StacksInside calmEnv calmHeap (fun _ => 0) threeNames.text ∧
      ∀ h, bkvFromJson calmEnv calmHeap (fun _ => 0) .direct threeNames.text = .ok (bkvOk, some h) →
        ∀ ks, fromJsonIndices calmEnv calmHeap (fun _ => 0) .direct threeNames.text = .ok ks →
          NamesIndexed (fun _ => 0) h ks threeNames :=
  (names_indexed_iff calmEnv calmEnv_granted calmHeap (fun _ => 0) threeNames).mpr
    ⟨by decide, by decide, by decide⟩

/-- An object with `n` members of one name. -/
def manyMembers : Nat → Json .map
  | 0 => .nil
  | n + 1 => .member [0x61] .null (manyMembers n)

theorem manyMembers_names (n : Nat) : (manyMembers n).names = List.replicate n [0x61] := by
  induction n with
  | zero => rfl
  | succ n ih => exact congrArg ([0x61] :: ·) ih

theorem many_names_reserved :
    ∃ h ks, bkvFromJson calmEnv calmHeap (fun _ => 0) .direct (manyMembers 4092).text =
        .ok (bkvOk, some h) ∧
      fromJsonIndices calmEnv calmHeap (fun _ => 0) .direct (manyMembers 4092).text = .ok ks ∧
      bkvArrayKey ∈ ks ∧ ¬NamesIndexed (fun _ => 0) h ks (manyMembers 4092) := by
  obtain ⟨h, hrun⟩ := direct_success calmHeap (fun _ => 0) calmEnv_granted (manyMembers 4092)
  have hgiven : bkvArrayKey ∈ (numbered 0 (manyMembers 4092).names).map Prod.fst := by
    apply arrayKey_numbered
    rw [manyMembers_names, List.length_replicate]
    omega
  refine ⟨h, _, hrun, fromJson_indices calmHeap (fun _ => 0) calmEnv_granted.creates _, hgiven, ?_⟩
  intro hindexed
  exact hindexed.unreserved _ hgiven (by decide)

end Wtools
