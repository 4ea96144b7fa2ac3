import Wtools.TrieForeach
import Wtools.CachedKeys

/-!
# The cached dictionary

The same text through either dictionary. The runs with the cached one are followed through
the key tree: which keys the names are given, and which words the dictionary lists when the
tree is turned into a document.
-/

namespace Wtools
open ByteMemory Forest

/-- A property of the data of every key. -/
def Key.All (p : UInt64 → Prop) : Key → Prop
  | .null => True
  | .key _ udata _ _ child => p udata ∧ ∀ t i, (child t i).All p

section
variable {p : UInt64 → Prop}

theorem Key.All.put {eow : Bool} {udata : UInt64} {keys keys' : Table → Keys} {nb nb' : Table → Nat}
    {child : Table → Nat → Key} (hk : (Key.key eow udata keys nb child).All p) {sub : Key}
    (hsub : sub.All p) (t : Table) (i : Nat) :
    (Key.key eow udata keys' nb'
      (Function.update child t (Function.update (child t) i sub))).All p := by
  refine ⟨hk.1, fun u j => ?_⟩
  by_cases hu : u = t
  · subst hu
    by_cases hj : j = i
    · simpa [hj] using hsub
    · simpa [hj] using hk.2 u j
  · simpa [hu] using hk.2 u j

/-- An add leaves data that were there, its own, or 0. -/
theorem createKey_all (h0 : p 0) {fold : Bool} {udata : UInt64} (hu : p udata) {w : List UInt8}
    {started new_elem : Bool} {k : Key} {heap : Heap} {r : Added} (hk : k.All p)
    (h : createKey fold udata w started new_elem k heap = .ok r) :
    r.key.All p ∧ ∀ v ∈ r.udata, p v := by
  induction w generalizing started new_elem k heap r with
  | nil =>
    rw [createKey] at h
    split at h
    · cases k with
      | null => cases h
      | key eow old keys nb child =>
        cases new_elem with
        | true =>
          cases h
          exact ⟨⟨hu, hk.2⟩, by simp⟩
        | false =>
          cases h
          refine ⟨hk, fun v hv => ?_⟩
          cases hv
          exact hk.1
    · cases h
  | cons c cs ih =>
    unfold createKey at h
    dsimp only at h
    split at h
    · split at h
      · exact ih hk h
      · cases h
    · cases h
    · rename_i t i eow old keys nb child _
      generalize (if keys t = Keys.null then heap.next else heap) = heap₁ at h
      generalize (if keys t = Keys.null ∧ heap.malloc heap.calls = true then
        Function.update keys t Keys.live else keys) = keys₁ at h
      have hskip : ∀ {keys' : Table → Keys} {heap' : Heap},
          (if started then createKey fold udata cs true false (.key eow old keys' nb child) heap'
            else .error .uninitialised) = .ok r → r.key.All p ∧ ∀ v ∈ r.udata, p v := by
        intro keys' heap' h
        split at h
        · exact ih (show (Key.key eow old keys' nb child).All p from hk) h
        · cases h
      split at h
      · cases h
      split at h
      · split at h
        · exact hskip h
        · cases h
          exact ⟨hk, by simp [Added.noMemory]⟩
      split at h
      · exact hskip h
      split at h
      · cases h
      split at h
      · obtain ⟨r', hr', rfl⟩ := map_under_eq_ok h
        obtain ⟨hsub, hout⟩ := ih (hk.2 t i.toNat) hr'
        exact ⟨hk.put hsub t i.toNat, hout⟩
      split at h
      · obtain ⟨r', hr', rfl⟩ := map_under_eq_ok h
        obtain ⟨hsub, hout⟩ := ih (show Key.blank.All p from ⟨h0, fun _ _ => trivial⟩) hr'
        exact ⟨hk.put hsub t i.toNat, hout⟩
      split at h
      · cases h
      · cases h
        exact ⟨hk, by simp [Added.noMemory]⟩

theorem wgKeyRelease_all {k k' : Key} (hk : k.All p) (h : wgKeyRelease k = .ok k') : k'.All p := by
  cases k with
  | null => cases h
  | key eow udata keys nb child =>
    rw [wgKeyRelease] at h
    split at h
    · cases h
    · cases h
      exact hk

theorem wgKeytreeAdd_all (h0 : p 0) {udata : UInt64} (hu : p udata) {head : KeytreeHead}
    {w : List UInt8} {heap : Heap} {r : AddResult} (hk : head.top.All p)
    (h : wgKeytreeAdd head w udata heap = .ok r) : r.head.top.All p ∧ ∀ v ∈ r.udata, p v := by
  rw [wgKeytreeAdd, parseFileCreateKey] at h
  split at h
  · cases h
    exact ⟨hk, by simp⟩
  · cases hc : createKey head.folds udata w false false head.top heap with
    | error e =>
      rw [hc] at h
      cases h
    | ok r' =>
      obtain ⟨hkey, hout⟩ := createKey_all h0 hu hk hc
      rw [hc] at h
      simp only [bind, Except.bind] at h
      split at h
      · cases hrel : wgKeyRelease r'.key with
        | error e =>
          rw [hrel] at h
          cases h
        | ok top =>
          rw [hrel] at h
          cases h
          exact ⟨wgKeyRelease_all hkey hrel, by simp⟩
      · cases h
        exact ⟨hkey, hout⟩

theorem Shown.all {k k' : Key} {u : List UInt8} (h : Shown k u k') (hk : k.All p) : k'.All p := by
  induction h with
  | entry t i hi => exact hk.2 t i
  | inside t i hi h ih => exact ih (hk.2 t i)

end

/-- The data that the reader gives to the key tree. -/
def Index (v : UInt64) : Prop := v ≤ 0xFFC

theorem index_of_le {n : Nat} (hn : n ≤ 4090) : Index (UInt16.ofNat (n + 2)).toUInt64 := by
  rw [Index, UInt64.le_iff_toNat_le, UInt16.toNat_toUInt64, UInt16.toNat_ofNat',
    Nat.mod_eq_of_lt (by omega)]
  exact Nat.add_le_add_right hn 2

theorem Index.key_le {v : UInt64} (h : Index v) : v.toUInt16 ≤ 0xFFC := by
  rw [Index, UInt64.le_iff_toNat_le] at h
  rw [UInt16.le_iff_toNat_le, UInt64.toNat_toUInt16]
  exact (Nat.mod_le _ _).trans h

variable {env : Env} {float : List UInt8 → UInt32} {key key' : Nat → UInt16}

theorem Named.congr {n : Nat} {d d' : Dico} {ws : List (List UInt8)} (h : Named env key n d ws d')
    (hk : ∀ i, n < i → key' i = key i) : Named env key' n d ws d' := by
  induction h with
  | nil n d => exact .nil n d
  | cons hadd hkey _ ih =>
    exact .cons hadd (by rw [hk _ (Nat.lt_succ_self _), hkey]) (ih fun i hi => hk i (by omega))

theorem dicoKeyAdd_cached {head : KeytreeHead} {heap : Heap} {k : UInt16} {w : List UInt8}
    {r : AddResult} (h : wgKeytreeAdd head w k.toUInt64 heap = .ok r) :
    bkvDicoKeyAdd env (some (.cached head heap)) k w =
      .ok (bkvOk, if r.error = wEExists then (r.udata.getD 0).toUInt16 else bkvNoKey,
        some (.cached r.head r.heap)) := by
  simp only [bkvDicoKeyAdd, dicoCachedKeyAdd, h]
  rfl

theorem named_of_adds (env : Env) {n : Nat} {ws : List (List UInt8)} (hn : n + ws.length ≤ 4091)
    {head head' : KeytreeHead} {heap heap' : Heap} (hk : head.top.All Index)
    (h : addAll head heap (indexed n ws) = .ok (head', heap')) :
    ∃ key, Named env key n (.cached head heap) ws (.cached head' heap') ∧ (∀ i, key i ≤ 0xFFC) ∧
      head'.top.All Index := by
  induction ws generalizing n head heap with
  | nil =>
    cases h
    exact ⟨fun _ => 0, .nil n _, fun _ => UInt16.zero_le, hk⟩
  | cons w ws ih =>
    rw [List.length_cons] at hn
    have hidx := index_of_le (n := n) (by omega)
    rw [indexed, addAll] at h
    cases hr : wgKeytreeAdd head w (UInt16.ofNat (n + 2)).toUInt64 heap with
    | error e =>
      rw [hr] at h
      cases h
    | ok r =>
      rw [hr] at h
      obtain ⟨hall, hout⟩ := wgKeytreeAdd_all (p := Index) (UInt64.zero_le) hidx hk hr
      obtain ⟨key, hnamed, hle, hall'⟩ := ih (n := n + 1) (by omega) hall h
      let fin : UInt16 := if r.error = wEExists then (r.udata.getD 0).toUInt16 else bkvNoKey
      let final : UInt16 := if fin ≠ bkvNoKey then fin else .ofNat (n + 2)
      have hfin : final ≤ 0xFFC := by
        have hown := hidx.key_le
        rw [UInt16.toUInt16_toUInt64] at hown
        have hfin : fin ≤ 0xFFC := by
          dsimp only [fin]
          split
          · cases hu : r.udata with
            | none => exact UInt16.zero_le
            | some v => exact (hout v (by rw [hu]; rfl)).key_le
          · exact UInt16.zero_le
        dsimp only [final]
        split
        · exact hfin
        · exact hown
      refine ⟨Function.update key (n + 1) final, .cons (dicoKeyAdd_cached hr) ?_ ?_, fun i => ?_,
        hall'⟩
      · rw [Function.update_self]
      · exact hnamed.congr fun i hi => Function.update_of_ne (by omega) _ _
      · by_cases hi : i = n + 1
        · rwa [hi, Function.update_self]
        · rw [Function.update_of_ne hi]
          exact hle i

/-- The name that an event gives. -/
def JsonEvent.name? : JsonEvent → Option (List UInt8)
  | mapKey key => some key
  | _ => none

theorem events_names {k : Kind} (j : Json k) : j.events.filterMap JsonEvent.name? = j.names := by
  have hv : ∀ v : Value, v.event.name? = none := fun v => by cases v <;> rfl
  have hs : ∀ c, (startEvent c).name? = none := fun c => by cases c <;> rfl
  have he : ∀ c, (endEvent c).name? = none := fun c => by cases c <;> rfl
  have hn : ∀ name, (JsonEvent.mapKey name).name? = some name := fun _ => rfl
  induction j with
  | nil => rfl
  | member name v rest ih =>
    rw [Json.events, List.filterMap_cons_some (hn name), List.filterMap_cons_none (hv v), ih]
    rfl
  | memberIn name c body rest ihb ih =>
    rw [Json.events, List.filterMap_cons_some (hn name), List.filterMap_cons_none (hs c),
      List.filterMap_append, List.filterMap_cons_none (he c), ihb, ih]
    rfl
  | element v rest ih =>
    rw [Json.events, List.filterMap_cons_none (hv v), ih]
    rfl
  | elementIn c body rest ihb ih =>
    rw [Json.events, List.filterMap_cons_none (hs c), List.filterMap_append,
      List.filterMap_cons_none (he c), ihb, ih]
    rfl

theorem callback_dico {e : JsonEvent} (he : e.name? = none) {c c' : FromJsonCtx} {r : Int}
    (h : jsonCallback env float e c = .ok (r, c')) :
    c'.dicoHandle = c.dicoHandle ∧ c'.keyIndex = c.keyIndex ∧
      c'.existingKeyIndex = c.existingKeyIndex := by
  cases e with
  | mapKey key => cases he
  | _ =>
    simp only [jsonCallback, bkvJsonGetBoolean, bkvJsonGetNumber, bkvJsonGetString, bkvJsonStartMap,
      bkvJsonEndMap, bkvJsonStartArray, bkvJsonEndArray] at h
    repeat' split at h
    all_goals
      cases h
      exact ⟨rfl, rfl, rfl⟩

/-- The words shown with their keys, as the dictionary gets them. -/
def shownWords : List (Key × List UInt8) → List (UInt16 × List UInt8) :=
  List.filterMap fun call =>
    match call.1 with
    | .key true udata .. => some (udata.toUInt16, call.2)
    | _ => none

theorem mem_shownWords {calls : List (Key × List UInt8)} {k : UInt16} {w : List UInt8} :
    (k, w) ∈ shownWords calls ↔
      ∃ k', (k', w) ∈ calls ∧ ∃ v, k'.tree.label = some (true, v) ∧ v.toUInt16 = k := by
  rw [shownWords, List.mem_filterMap]
  constructor
  · rintro ⟨⟨k', w'⟩, hmem, h⟩
    dsimp only at h
    split at h
    · cases h
      rename_i udata _ _ _
      exact ⟨_, hmem, udata, rfl, rfl⟩
    · cases h
  · rintro ⟨k', hmem, v, hlabel, rfl⟩
    refine ⟨(k', w), hmem, ?_⟩
    cases k' with
    | null => cases hlabel
    | key eow udata keys nb child =>
      cases hlabel
      rfl

theorem fold_elems (env : Env) {h : Bkv} {k : UInt16} {done : Items}
    {calls : List (Key × List UInt8)}
    (hs : Sim h (.inside ⟨.map, k, done⟩ [])) (hkeys : ∀ p ∈ shownWords calls, p.1 ≤ 0xFFF) :
    Sim (calls.foldl (fun s call => dicoCachedElem env call.1 call.2 s) h)
      (.inside ⟨.map, k, done ++ dictionary (shownWords calls)⟩ []) := by
  induction calls generalizing h done with
  | nil => simpa [shownWords, dictionary] using hs
  | cons call calls ih =>
    obtain ⟨k', w⟩ := call
    rw [List.foldl_cons]
    have hskip : dicoCachedElem env k' w h = h →
        shownWords ((k', w) :: calls) = shownWords calls →
        Sim (calls.foldl (fun s call => dicoCachedElem env call.1 call.2 s)
            (dicoCachedElem env k' w h))
          (.inside ⟨.map, k, done ++ dictionary (shownWords ((k', w) :: calls))⟩ []) := by
      intro h₁ h₂
      rw [h₂] at hkeys ⊢
      rw [h₁]
      exact ih hs hkeys
    cases k' with
    | null => exact hskip rfl rfl
    | key eow udata keys nb child =>
      cases eow with
      | false => exact hskip rfl rfl
      | true =>
        have hwords : shownWords ((Key.key true udata keys nb child, w) :: calls) =
            (udata.toUInt16, w) :: shownWords calls := rfl
        rw [hwords, List.forall_mem_cons] at hkeys
        have hexec := hs.exec env (.add (.keyed udata.toUInt16 (.str w)))
        rw [next_add rfl (by simpa [Call.inRange] using hkeys.1)] at hexec
        have hrest := ih hexec hkeys.2
        have helem : dicoCachedElem env (.key true udata keys nb child) w h =
            (exec env h (.add (.keyed udata.toUInt16 (.str w)))).2 := rfl
        rw [hwords, dictionary, helem]
        simpa [Frame.put, append_assoc] using hrest

theorem shownWords_le {k : Key} (hk : k.All Index) {calls : List (Key × List UInt8)}
    (h : keytreeForeach k [] = .ok calls) : ∀ p ∈ shownWords calls, p.1 ≤ 0xFFC := by
  rintro ⟨key, w⟩ hp
  obtain ⟨k', hmem, v, hlabel, rfl⟩ := mem_shownWords.mp hp
  obtain ⟨u, -, hu⟩ := (foreach_mem h _ _).mp hmem
  have hall := hu.all hk
  cases k' with
  | null => cases hlabel
  | key eow udata keys nb child =>
    cases hlabel
    exact hall.1.key_le

/-- The key tree turned into a document, when it can be released. -/
theorem cached_destroy (hc : Creates env) {head : KeytreeHead} (heap : Heap)
    (hk : head.top.All Index)
    {calls : List (Key × List UInt8)} (hcalls : keytreeForeach head.top [] = .ok calls) :
    ∃ a, bkvDicoDestroy env 1 (.cached head heap) =
        (wgKeyRelease head.top).map (fun _ => (bkvOk, some a)) ∧
      Sim a (.complete bkvDicoKey (dictionary (shownWords calls))) := by
  obtain ⟨h₀, hx, hs₀⟩ := (hc.fresh_sim 1).accept env (c := .opening .map bkvDicoKey) rfl
  have hx' : bkvKvMapOpen env (freshHandle env 1 (-1)) bkvDicoKey = (bkvOk, h₀) := hx
  have hs₁ := fold_elems env hs₀ fun p hp =>
    UInt16.le_trans (shownWords_le hk hcalls p hp) (by decide)
  obtain ⟨a, hy, ha⟩ := hs₁.accept env (c := .closing .map) rfl
  refine ⟨a, ?_, ha⟩
  have hy' : bkvKvMapClose env (calls.foldl (fun s call => dicoCachedElem env call.1 call.2 s) h₀) =
      (bkvOk, a) := hy
  simp only [bkvDicoDestroy, dicoCachedDestroy, hc.create, hx', wgKeytreeForeach, hcalls, bind,
    Except.bind, pure, Except.pure, hy', ne_eq, not_true_eq_false, if_false]
  cases wgKeyRelease head.top <;> rfl

theorem cached_destroy_error (hc : Creates env) {head : KeytreeHead} (heap : Heap) {e : KeyFault}
    (h : keytreeForeach head.top [] = .error e) :
    bkvDicoDestroy env 1 (.cached head heap) = .error e := by
  obtain ⟨h₀, hx, -⟩ := (hc.fresh_sim 1).accept env (c := .opening .map bkvDicoKey) rfl
  have hx' : bkvKvMapOpen env (freshHandle env 1 (-1)) bkvDicoKey = (bkvOk, h₀) := hx
  simp only [bkvDicoDestroy, dicoCachedDestroy, hc.create, hx', wgKeytreeForeach, h, bind,
    Except.bind, ne_eq, not_true_eq_false, if_false]

/-- The head of the cached dictionary when it is made. -/
def cachedHead : KeytreeHead := ⟨0, false, .blank⟩

theorem cached_create (hc : Creates env) {heap : Heap} (hm : heap.malloc heap.calls) :
    bkvDicoCreate env 1 heap .cached = .ok (bkvOk, some (.cached cachedHead heap.next)) := by
  simp only [bkvDicoCreate, dicoCachedCreate, wgKeytreeCreate, hm, if_true, createFrom,
    hc.mallocHandle]
  rfl

theorem cachedHead_all : cachedHead.top.All Index := ⟨UInt64.zero_le, fun _ _ => trivial⟩

theorem cachedHead_tree : cachedHead.top.tree = treeOf [] := by
  simp only [cachedHead, Key.blank, Key.tree, ite_self]
  rfl

/-- What the cached dictionary goes through for the names of a text. -/
structure CachedRun (heap : Heap) (ws : List (List UInt8)) (head : KeytreeHead) (heap' : Heap)
    (calls : List (Key × List UInt8)) : Prop where
  adds : addAll cachedHead heap.next (indexed 0 ws) = .ok (head, heap')
  shows : keytreeForeach head.top [] = .ok calls
  release : ∃ top, wgKeyRelease head.top = .ok top

variable {heap heap' : Heap} {ws : List (List UInt8)} {head : KeytreeHead}
  {calls : List (Key × List UInt8)} {j : Json .map}

theorem CachedRun.document (h : CachedRun heap j.names head heap' calls) (hg : Granted env)
    (hm : heap.malloc heap.calls) (hj : j.Flat) (hn : j.names.length ≤ 4091)
    (float : List UInt8 → UInt32) :
    ∃ key a, Named env key 0 (.cached cachedHead heap.next) j.names (.cached head heap') ∧
      (∀ i, key i ≤ 0xFFC) ∧ (∀ p ∈ shownWords calls, p.1 ≤ 0xFFC) ∧
      bkvFromJson env heap float .cached j.text = .ok (bkvOk, some a) ∧
      Sim a (.complete bkvNoKey (j.stored float key 0 false ++
        .node (.map, bkvDicoKey) (dictionary (shownWords calls)) .nil)) := by
  obtain ⟨key, hnamed, hkeys, hall⟩ := named_of_adds env (by omega) cachedHead_all h.adds
  obtain ⟨a, hdestroy, ha⟩ := cached_destroy hg.creates heap' hall h.shows
  obtain ⟨top, htop⟩ := h.release
  rw [htop] at hdestroy
  obtain ⟨h', hrun, hs⟩ := fromJson_document float hg hj (cached_create hg.creates hm) hnamed
    (fun i _ => UInt16.le_trans (hkeys i) (by decide)) hdestroy ha
  exact ⟨key, h', hnamed, hkeys, shownWords_le hall h.shows, hrun, hs⟩

end Wtools
