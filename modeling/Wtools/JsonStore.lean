import Wtools.JsonParse
import Wtools.ReadBack

/-!
# What the JSON reader stores

The document `bkv_from_json` leaves: the records of the text with the document of the
dictionary spliced in at the end of its root. With the direct dictionary the names are
numbered in order, and the records are those of the text unless an array has a scalar
after an object with members, which is lost.
-/

namespace Wtools
open ByteMemory Forest

/-- Every request for memory succeeds. -/
structure Granted (env : Env) : Prop where
  malloc : ∀ n, env.malloc n
  mallocHandle : env.mallocHandle
  realloc : ∀ n, env.realloc n

variable {env : Env} {float : List UInt8 → UInt32} {key : Nat → UInt16}

/-- The memory for new handles is there. -/
structure Creates (env : Env) : Prop where
  malloc : env.malloc bkvDefaultMemChunkSize
  mallocHandle : env.mallocHandle

theorem Granted.creates (hg : Granted env) : Creates env := ⟨hg.malloc _, hg.mallocHandle⟩

theorem Creates.create (hc : Creates env) (id : Nat) :
    bkvCreate env id { bkvCreateInit with createType := .workInRam } =
      (bkvOk, some (freshHandle env id (-1))) := by
  simp [bkvCreate, openBuffer, hc.malloc, hc.mallocHandle]
  rfl

theorem Creates.fresh_sim (hc : Creates env) (id : Nat) : Sim (freshHandle env id (-1)) .start :=
  freshRam_sim ⟨id, _, rfl, hc.create id⟩

theorem Granted.create (hg : Granted env) (id : Nat) :
    bkvCreate env id { bkvCreateInit with createType := .workInRam } =
      (bkvOk, some (freshHandle env id (-1))) := hg.creates.create id

theorem Granted.fresh_sim (hg : Granted env) (id : Nat) : Sim (freshHandle env id (-1)) .start :=
  hg.creates.fresh_sim id

theorem Sim.accept (env : Env) {h : Bkv} {p p' : Position} {c : Call} (hs : Sim h p)
    (hn : p.next? c = some p') : ∃ h', Wtools.exec env h c = (bkvOk, h') ∧ Sim h' p' := by
  rcases exec_refines env hs.ram hs.controls c with ⟨hno, -, -⟩ | ⟨q, hq, hx⟩
  · rw [hn] at hno
    cases hno
  · exact ⟨_, hx, hs.after env (next?_eq_some.mp hn).2⟩

/-- The parser leaves the records of a text in the root map, which is still open. -/
theorem parse_text (float : List UInt8 → UInt32) (hg : Granted env) {j : Json .map} (hj : j.Flat)
    {d₀ d : Dico}
    (hd : Named env key 0 d₀ j.names d) (hkeys : ∀ i, i ≤ j.names.length → key i ≤ 0xFFF) :
    ∃ c, bkvFromJsonYajlParse env float j.text ⟨freshHandle env 0 (-1), some d₀, 0, false, 0, 0⟩ =
        .ok (bkvOk, c) ∧ c.dicoHandle = some d ∧
      Sim c.dataHandle (.inside ⟨.map, bkvNoKey, j.stored float key 0 false⟩ []) := by
  obtain ⟨h, hx, hs⟩ := (hg.fresh_sim 0).accept env (c := .opening .map bkvNoKey) rfl
  have hc : Reading key ⟨h, some d₀, 1, false, 1, env.uninitKey⟩ ⟨.map, bkvNoKey, .nil⟩ [] 0 d₀ :=
    ⟨hs, rfl, rfl, rfl, nofun⟩
  obtain ⟨c, hp, -, hc'⟩ := parse_contents float j hj hc rfl hd nofun
    (by simpa using hkeys) [.endMap]
  have hstart : jsonCallback env float .startMap
      ⟨freshHandle env 0 (-1), some d₀, 0, false, 1, env.uninitKey⟩ =
        .ok (1, ⟨h, some d₀, 1, false, 1, env.uninitKey⟩) := by
    simp [jsonCallback, bkvJsonStartMap, write_eq, hx, bkvOk]
  have hdeep : c.deep - 1 = 0 := by
    rw [hc'.deep]
    rfl
  have hend : jsonCallback env float .endMap c = .ok (-1, { c with deep := 0 }) := by
    simp [jsonCallback, bkvJsonEndMap, hdeep, hc'.dico]
  refine ⟨{ c with deep := 0 }, ?_, hc'.dico, hc'.sim⟩
  simp only [bkvFromJsonYajlParse, Json.text, yajlParse_cons hstart (by decide), hp,
    yajlParse_cons hend (by decide)]
  rfl

theorem fromJson_document (float : List UInt8 → UInt32) (hg : Granted env) {heap : Heap}
    {type : DicoType} {j : Json .map}
    (hj : j.Flat) {d₀ d : Dico} (hcreate : bkvDicoCreate env 1 heap type = .ok (bkvOk, some d₀))
    (hd : Named env key 0 d₀ j.names d) (hkeys : ∀ i, i ≤ j.names.length → key i ≤ 0xFFF) {a : Bkv}
    {items : Items} (hdestroy : bkvDicoDestroy env 1 d = .ok (bkvOk, some a))
    (ha : Sim a (.complete bkvDicoKey items)) :
    ∃ h, bkvFromJson env heap float type j.text = .ok (bkvOk, some h) ∧
      Sim h (.complete bkvNoKey
        (j.stored float key 0 false ++ .node (.map, bkvDicoKey) items .nil)) := by
  obtain ⟨c, hp, hdico, hs⟩ := parse_text float hg hj hd hkeys
  obtain ⟨hok, hs'⟩ := hs.append env (a := a.toTail) hg.realloc
    (g := .node (.map, bkvDicoKey) items .nil) ⟨rfl, ha.legal, trivial⟩ ha.laid.1 ha.laid.2
  obtain ⟨h, hx, hs''⟩ := hs'.accept env (c := .closing .map) rfl
  refine ⟨h, ?_, hs''⟩
  have hx' : bkvKvMapClose env (bkvAppend env c.dataHandle a.toTail).2 = (bkvOk, h) := hx
  simp only [bkvFromJson, hg.create, hcreate, hp, hdico, hdestroy, ne_eq, not_true_eq_false,
    if_false, bind, Except.bind, hok, hx']
  rfl

/-- The keys given out by the direct dictionary. -/
def directKey (n : Nat) : UInt16 := .ofNat (n + 1)

/-- The records of a dictionary. -/
def dictionary : List (UInt16 × List UInt8) → Items
  | [] => .nil
  | (key, w) :: ws => .leaf (.keyed key (.str w)) (dictionary ws)

/-- The names that follow `n` names, with their keys. -/
def numbered : Nat → List (List UInt8) → List (UInt16 × List UInt8)
  | _, [] => []
  | n, w :: ws => (directKey (n + 1), w) :: numbered (n + 1) ws

theorem directKey_le {n : Nat} (hn : n + 1 ≤ 0xFFF) : directKey n ≤ 0xFFF := by
  rw [UInt16.le_iff_toNat_le, directKey, UInt16.toNat_ofNat', Nat.mod_eq_of_lt (by omega)]
  exact hn

theorem named_direct (env : Env) {h : Bkv} {k : UInt16} {done : Items} {n : Nat}
    {ws : List (List UInt8)} (hs : Sim h (.inside ⟨.map, k, done⟩ []))
    (hn : n + ws.length + 1 ≤ 0xFFF) :
    ∃ h', Named env directKey n (.direct h) ws (.direct h') ∧
      Sim h' (.inside ⟨.map, k, done ++ dictionary (numbered n ws)⟩ []) := by
  induction ws generalizing h done n with
  | nil => exact ⟨h, .nil n _, by simpa [numbered, dictionary] using hs⟩
  | cons w ws ih =>
    rw [List.length_cons] at hn
    have hnext :
        (Position.inside ⟨.map, k, done⟩ []).next? (.add (.keyed (directKey (n + 1)) (.str w))) =
        some (.inside ⟨.map, k, done ++ .leaf (.keyed (directKey (n + 1)) (.str w)) .nil⟩ []) := by
      have hr := directKey_le (n := n + 1) (by omega)
      simp [Position.next?, Call.inRange, hr, advance, Entry.kind, Frame.put]
    obtain ⟨h₁, hx, hs₁⟩ := hs.accept env hnext
    obtain ⟨h', hrest, hs'⟩ := ih hs₁ (n := n + 1) (by omega)
    have hx' : bkvKvStrAdd env h (.ofNat (n + 2)) w = (bkvOk, h₁) := hx
    have hadd : bkvDicoKeyAdd env (some (.direct h)) (.ofNat (n + 2)) w =
        .ok (bkvOk, bkvNoKey, some (.direct h₁)) := by
      simp only [bkvDicoKeyAdd, dicoDirectKeyAdd, hx']
      rfl
    refine ⟨h', .cons hadd (if_neg (not_not_intro rfl)).symm hrest, ?_⟩
    rw [numbered, dictionary]
    simpa [append_assoc] using hs'

theorem direct_created (hc : Creates env) (heap : Heap) :
    ∃ h, bkvDicoCreate env 1 heap .direct = .ok (bkvOk, some (.direct h)) ∧
      Sim h (.inside ⟨.map, bkvDicoKey, .nil⟩ []) := by
  obtain ⟨h, hx, hs⟩ := (hc.fresh_sim 1).accept env (c := .opening .map bkvDicoKey) rfl
  have hx' : bkvKvMapOpen env (freshHandle env 1 (-1)) bkvDicoKey = (bkvOk, h) := hx
  refine ⟨h, ?_, hs⟩
  simp only [bkvDicoCreate, dicoDirectCreate, hc.create, hx', hc.mallocHandle]
  rfl

/-- With the direct dictionary the reader always ends with a document. -/
theorem direct_document (float : List UInt8 → UInt32) (hg : Granted env) (heap : Heap)
    {j : Json .map} (hj : j.Flat) (hn : j.names.length ≤ 4091) :
    ∃ h, bkvFromJson env heap float .direct j.text = .ok (bkvOk, some h) ∧
      Sim h (.complete bkvNoKey (j.stored float directKey 0 false ++
        .node (.map, bkvDicoKey) (dictionary (numbered 0 j.names)) .nil)) := by
  obtain ⟨h₀, hcreate, hs₀⟩ := direct_created hg.creates heap
  obtain ⟨h₁, hd, hs₁⟩ := named_direct env hs₀ (show 0 + j.names.length + 1 ≤ 0xFFF by omega)
  obtain ⟨a, hy, ha⟩ := hs₁.accept env (c := .closing .map) rfl
  have hdestroy : bkvDicoDestroy env 1 (.direct h₁) = .ok (bkvOk, some a) := by
    have hy' : bkvKvMapClose env h₁ = (bkvOk, a) := hy
    simp only [bkvDicoDestroy, dicoDirectDestroy, hy']
    rfl
  exact fromJson_document float hg hj hcreate hd (fun i hi => directKey_le (by omega)) hdestroy ha

/-- A traversal that leaves the dictionary out and keeps what it sees. -/
def withoutDico (z : Zone) : Callbacks (List Seen)
  | .mapOpen p key, s =>
    if key = bkvDicoKey then .ok (actionGotoEndMap, s)
    else .ok (actionNone, s ++ [(Event.mapOpen p key).seen z])
  | e, s => .ok (actionNone, s ++ [e.seen z])

/-- The data document of a handle: what a traversal from its head sees besides the dictionary. -/
def readBack (h : Bkv) : Except Fault (Int × List Seen) := do
  let z := bkvGetHead h
  let (_, v) ← bkvValInit z bkvValInitValue 0
  bkvValForeach z v (withoutDico z) []

/-- A call whose key is at most `bound`. -/
def Call.Within (bound : UInt16) : Call → Prop
  | .opening _ key => key ≤ bound
  | .closing _ => True
  | .add (.keyed key _) => key ≤ bound
  | .add (.elem _) => True

theorem within_fit {f : Items} {bound : UInt16} (hb : bound ≤ 0xFFF) (hsize : size f ≤ 65535)
    (h : ∀ c ∈ calls f, c.Within bound) : ∀ c ∈ calls f, c.Fits := by
  refine calls_fit hsize (fun c hc => ?_) fun k key hc => UInt16.le_trans (h _ hc) hb
  have hw := h c hc
  cases c with
  | add e =>
    cases e with
    | keyed key v => exact decide_eq_true (UInt16.le_trans hw hb)
    | elem v => rfl
  | _ => rfl

theorem mapOpen_mem_visits {ck cn : Nat → UInt16} {deep : Int} {off p : Nat} {key : UInt16}
    {f : Items}
    (h : Event.mapOpen p key ∈ (placed ck cn deep off f).visits) : .opening .map key ∈ calls f := by
  induction f generalizing deep off with
  | nil => simp [placed, visits] at h
  | leaf e rest ih =>
    rw [placed, visits, List.mem_cons] at h
    rcases h with h | h
    · cases hv : e.scalar <;> rw [hv] at h <;> cases h
    · simpa using ih h
  | node l body rest ihb ih =>
    obtain ⟨k, key'⟩ := l
    simp only [placed, visits, List.mem_cons, List.mem_append] at h
    rw [calls_node, List.mem_cons, List.mem_append, List.mem_cons]
    rcases h with h | h | h | h
    · cases k <;> cases h
      exact .inl rfl
    · exact .inr (.inl (ihb h))
    · cases k <;> cases h
    · exact .inr (.inr (.inr (ih h)))

theorem foldl_snoc {α β : Type} (g : α → β) (l : List α) (s : List β) :
    l.foldl (fun s a => s ++ [g a]) s = s ++ l.map g := by
  induction l generalizing s with
  | nil => simp
  | cons a l ih => simp [ih]

theorem withoutDico_quiet {z : Zone} {e : Event} (he : ∀ p, e ≠ .mapOpen p bkvDicoKey)
    (s : List Seen) : visit (withoutDico z) e s = .ok (⟨false, false⟩, s ++ [e.seen z]) := by
  cases e with
  | mapOpen p key =>
    have hk : key ≠ bkvDicoKey := fun hk => he p (hk ▸ rfl)
    simp [visit, withoutDico, hk, Except.map, skips, actionNone, actionGotoEndMap]
  | _ => simp [visit, withoutDico, Except.map, skips, actionNone, Event.isMapOpen]

theorem withoutDico_dico {z : Zone} (off : Nat) (s : List Seen) :
    visit (withoutDico z) (.mapOpen off bkvDicoKey) s = .ok (⟨true, false⟩, s) := by
  have hgoto : actionGotoEndMap ≠ 0 := by decide
  have hstop : actionGotoEndMap &&& actionStopLoop = 0 := by decide
  simp [visit, withoutDico, Except.map, skips, Event.isMapOpen, hgoto, hstop]

theorem readBack_document {h : Bkv} {f g : Items}
    (hs : Sim h (.complete bkvNoKey (f ++ .node (.map, bkvDicoKey) g .nil)))
    (hsize : h.writeOffset ≤ 65535) (hf : ∀ c ∈ calls f, c.Within 0xFFC)
    (hg : ∀ c ∈ calls g, c.Within 0xFFF) (hx : ∀ c ∈ calls f, c.exact) :
    readBack h = .ok (bkvOk, expected 0 (calls (.node (.map, bkvNoKey) f .nil))) := by
  obtain ⟨hfit, hw⟩ := hs.laid
  have hz : 0 + size (.node (.map, bkvNoKey) (f ++ .node (.map, bkvDicoKey) g .nil) .nil) ≤
      (bkvGetHead h).size := by
    rw [← hw, Nat.zero_add]
    exact Nat.le_refl _
  have hwithin : ∀ c ∈ calls (.node (.map, bkvNoKey) (f ++ .node (.map, bkvDicoKey) g .nil) .nil),
      c.Within 0xFFF := by
    simp only [calls_node, calls_append, calls_nil, List.forall_mem_cons, List.forall_mem_append]
    refine ⟨(by decide : bkvNoKey ≤ 0xFFF), ⟨fun c hc => ?_, (by decide : bkvDicoKey ≤ 0xFFF), hg,
      trivial, by simp⟩, trivial, by simp⟩
    have := hf c hc
    rcases c with _ | _ | _ | _
    · exact UInt16.le_trans this (by decide)
    · trivial
    · exact UInt16.le_trans this (by decide)
    · trivial
  have hbody : size (f ++ .node (.map, bkvDicoKey) g .nil) ≤ 65535 := by
    rw [size] at hw
    omega
  have hopen := withoutDico_dico (z := bkvGetHead h)
  have hroot := withoutDico_quiet (z := bkvGetHead h) (e := .mapOpen 0 bkvNoKey)
    (by simp [bkvNoKey, bkvDicoKey])
  have hclose := fun key => withoutDico_quiet (z := bkvGetHead h) (e := .mapClose key) (by simp)
  have hquiet : ∀ e ∈ (placed (closeKeys (bkvGetHead h).mem) (counts (bkvGetHead h).mem) 1 4
      f).visits, ∀ s, visit (withoutDico (bkvGetHead h)) e s =
        .ok (⟨false, false⟩, s ++ [e.seen (bkvGetHead h)]) := by
    intro e he
    refine withoutDico_quiet fun p hp => ?_
    have := hf _ (mapOpen_mem_visits (hp ▸ he))
    exact absurd this (by simp [Call.Within, bkvDicoKey])
  have hfitf : ByteMemory.Fits (bkvGetHead h).mem 4 (enc f) := by
    simp only [enc, enc_append, fits_append, header_length] at hfit
    exact hfit.2.1.1
  have hzf : 4 + size f ≤ (bkvGetHead h).size := by
    simp only [size, size_append, Kind.openWidth] at hz
    omega
  have hseen := visits_seen (closeKeys h.ptr) (counts h.ptr) 1 hfitf hzf hx
    [.closing .map]
  have hbase : (bkvGetHead h).size < 0 + 2 ^ 31 := by
    change h.writeOffset < _
    omega
  have hkept : ∀ r s', withoutDico (bkvGetHead h) (.mapOpen 0 bkvNoKey) [] = .ok (r, s') →
      r &&& actionGotoEndMap = 0 := by
    intro r s' hcb
    cases hcb
    rfl
  have hinit := bkvValInit_map hfit hz (by decide) bkvValInitValue
  simp only [readBack, hinit, ok_bind]
  rw [bkvValForeach, valForeach_eq_walk rfl hfit hz hbase
    (within_fit (by decide) (hw ▸ hsize) hwithin) (.inl hbody) hkept]
  simp only [placed, placed_append, openEvent, closeEvent, walk, walk_append, enter, hroot, hopen,
    hclose, Kind.openWidth, Nat.zero_add, Int.zero_add, Bool.false_eq_true, if_false, if_true,
    Outcome.next_going, visited_ok]
  rw [walk_quiet hquiet, foldl_snoc]
  simp only [Outcome.next_going, Except.map, calls_node, calls_nil, expected, Int.zero_add, hseen]
  rfl

/-- The values of the format: strings and integers of 16 bits. -/
def Value.Admissible : Value → Prop
  | null => False
  | boolean _ => True
  | number text => (text ≠ [] ∧ ∀ c ∈ text, isdigit c) ∧ decimalValue text ≤ 65535
  | string s => s.length ≤ 65535

theorem digit_step : ∀ c : UInt8, isdigit c →
    c ≠ 0x2E ∧ c.toUInt64 - 0x30 = .ofNat (c.toNat - 0x30) := by
  decide +kernel

theorem integerPart_eq {text : List UInt8} (ht : ∀ c ∈ text, isdigit c) {i a : Nat}
    (hi : i = 0 → a = 0) :
    integerPart i (.ofNat a) text = .ofNat (text.foldl (fun n c => n * 10 + (c.toNat - 0x30)) a) := by
  induction text generalizing i a with
  | nil => rfl
  | cons c cs ih =>
    obtain ⟨hdot, hval⟩ := digit_step c (ht c (by simp))
    have hacc : accumulate i (.ofNat a) c = .ofNat (a * 10 + (c.toNat - 0x30)) := by
      rw [accumulate, hval, UInt64.ofNat_add, UInt64.ofNat_mul]
      split
      · rfl
      · rw [hi (by omega)]
        rfl
    rw [integerPart, if_neg hdot, hacc, ih (fun d hd => ht d (by simp [hd])) (by omega)]
    rfl

theorem getNumberJson_decimal {text : List UInt8} (ht : ∀ c ∈ text, isdigit c)
    (hv : decimalValue text ≤ 65535) :
    getNumberJson float text = .u16 (.ofNat (decimalValue text)) := by
  have hdot : 0x2E ∉ text := fun h => (digit_step _ (ht _ h)).1 rfl
  have hint : integerPart 0 0 text = .ofNat (decimalValue text) :=
    integerPart_eq (i := 0) (a := 0) ht fun _ => rfl
  have hlt : UInt64.ofNat (decimalValue text) < 0x10000 := by
    rw [UInt64.lt_iff_toNat_lt, UInt64.toNat_ofNat', Nat.mod_eq_of_lt (by omega)]
    exact Nat.lt_succ_of_le hv
  rw [getNumberJson, if_neg hdot, hint, if_pos hlt]
  simp

theorem Value.Admissible.scalar (float : List UInt8 → UInt32) {v : Value} (hv : v.Admissible) :
    v.scalar float = v.asScalar ∧ v.asScalar.isSome := by
  cases v with
  | null => exact hv.elim
  | number text => simp [Value.scalar, Value.asScalar, getNumberJson_decimal hv.1.2 hv.2]
  | _ => exact ⟨rfl, rfl⟩

theorem Value.Admissible.elem (float : List UInt8 → UInt32) {v : Value} (hv : v.Admissible) :
    v.elem float = v.asElem ∧ v.asElem.isSome := by
  cases v with
  | null => exact hv.elim
  | number text => simp [Value.elem, Value.asElem, getNumberJson_decimal hv.1.2 hv.2]
  | _ => exact ⟨rfl, rfl⟩

@[simp] theorem calls_leafOf (e : Option Entry) : calls (leafOf e) = (e.map Call.add).toList := by
  cases e <;> rfl

theorem stored_calls (float : List UInt8 → UInt32) {k : Kind} (j : Json k) {n : Nat}
    (in_array : Bool) {bound : UInt16} (hkeys : ∀ i, i ≤ n + j.names.length → key i ≤ bound) :
    ∀ c ∈ calls (j.stored float key n in_array), c.Within bound ∧ c.exact := by
  have hscalar : ∀ (v : Value) (s : Scalar) (k : UInt16), v.scalar float = some s →
      (Call.add (.keyed k s)).exact := by
    intro v s k hs
    cases v with
    | number text =>
      rw [Value.scalar] at hs
      split at hs <;> cases hs <;> rfl
    | null => cases hs
    | _ =>
      cases hs
      rfl
  induction j generalizing n in_array with
  | nil => simp [Json.stored]
  | member name v rest ih =>
    simp only [Json.names, List.length_cons] at hkeys
    rw [Json.stored, calls_append, List.forall_mem_append]
    refine ⟨?_, ih _ fun i hi => hkeys i (by omega)⟩
    cases hv : v.scalar float with
    | none => simp
    | some s => simpa using ⟨hkeys (n + 1) (by omega), hscalar v s _ hv⟩
  | memberIn name c body rest ihb ih =>
    simp only [Json.names, List.length_cons, List.length_append] at hkeys
    simp only [Json.stored, calls_node, List.forall_mem_cons, List.forall_mem_append]
    exact ⟨⟨hkeys (n + 1) (by omega), rfl⟩, ihb _ fun i hi => hkeys i (by omega), ⟨trivial, rfl⟩,
      ih _ fun i hi => hkeys i (by omega)⟩
  | element v rest ih =>
    rw [Json.stored, calls_append, List.forall_mem_append]
    refine ⟨?_, ih _ hkeys⟩
    cases in_array with
    | false => simp
    | true => cases v.elem float <;> simp [Call.Within, Call.exact]
  | elementIn c body rest ihb ih =>
    simp only [Json.names, List.length_append] at hkeys
    simp only [Json.stored, calls_node, List.forall_mem_cons, List.forall_mem_append]
    exact ⟨⟨hkeys n (by omega), rfl⟩, ihb _ fun i hi => hkeys i (by omega), ⟨trivial, rfl⟩,
      ih _ fun i hi => hkeys i (by omega)⟩

namespace Json

variable {k : Kind}

/-- Whether an array has a scalar element. -/
def hasElement {k : Kind} : Json k → Bool
  | nil => false
  | member _ _ _ => false
  | memberIn _ _ _ _ => false
  | element _ _ => true
  | elementIn _ _ rest => rest.hasElement

/-- No array has a scalar after an object with members. -/
def Kept {k : Kind} : Json k → Prop
  | nil => True
  | member _ _ rest => rest.Kept
  | memberIn _ _ body rest => body.Kept ∧ rest.Kept
  | element _ rest => rest.Kept
  | elementIn _ body rest => (body.isEmpty ∨ rest.hasElement = false) ∧ body.Kept ∧ rest.Kept

theorem hasElement_map (j : Json .map) : j.hasElement = false := by
  cases j <;> rfl

/-- While the flag is set, or there is nothing to lose, the records are those of the text. -/
theorem stored_eq (j : Json k) (hj : j.Forall Value.Admissible fun k c => k.holds c) (hk : j.Kept)
    {n : Nat} {in_array : Bool} (ha : in_array ∨ j.hasElement = false) :
    j.stored float key n in_array = j.faithful key n := by
  induction j generalizing n in_array with
  | nil => rfl
  | member name v rest ih =>
    rw [stored, faithful, (hj.1.scalar float).1, ih hj.2 hk (.inr (hasElement_map rest))]
  | memberIn name c body rest ihb ih =>
    have hbody : (decide (c = .array) : Bool) ∨ body.hasElement = false := by
      cases c with
      | map => exact .inr (hasElement_map body)
      | array => exact .inl rfl
    rw [stored, faithful, ihb hj.2.1 hk.1 hbody, ih hj.2.2 hk.2 (.inr (hasElement_map rest))]
  | element v rest ih =>
    have ht : in_array = true := by simpa [hasElement] using ha
    rw [stored, faithful, if_pos ht, (hj.1.elem float).1, ih hj.2 hk (.inl ht)]
  | elementIn c body rest ihb ih =>
    obtain ⟨hc, hjb, hjr⟩ := hj
    obtain ⟨hlost, hkb, hkr⟩ := hk
    cases c with
    | array => cases hc
    | map =>
      have hrest : (in_array && body.isEmpty : Bool) ∨ rest.hasElement = false := by
        rw [hasElement] at ha
        rcases ha with ha | ha
        · simpa [ha] using hlost
        · exact .inr ha
      rw [stored, faithful, ihb hjb hkb (.inr (hasElement_map body)), ih hjr hkr hrest]

/-- Nothing is stored but for a value of the text, and a value that is lost is missed. -/
theorem stored_length (float : List UInt8 → UInt32) (key : Nat → UInt16) (j : Json k)
    (hj : j.Forall Value.Admissible fun k c => k.holds c) (n : Nat) (in_array : Bool) :
    (calls (j.stored float key n in_array)).length ≤ (calls (j.faithful key n)).length ∧
    ((calls (j.stored float key n in_array)).length = (calls (j.faithful key n)).length →
      (in_array ∨ j.hasElement = false) ∧ j.Kept) := by
  induction j generalizing n in_array with
  | nil => exact ⟨Nat.le_refl _, fun _ => ⟨.inr rfl, trivial⟩⟩
  | member name v rest ih =>
    have := ih hj.2 (n + 1) false
    simp only [stored, faithful, (hj.1.scalar float).1, calls_append, List.length_append]
    exact ⟨by omega, fun h => ⟨.inr rfl, (this.2 (by omega)).2⟩⟩
  | memberIn name c body rest ihb ih =>
    have hb := ihb hj.2.1 (n + 1) (c = .array)
    have hr := ih hj.2.2 (n + 1 + body.names.length) false
    simp only [stored, faithful, calls_node, List.length_append, List.length_cons]
    exact ⟨by omega, fun h => ⟨.inr rfl, (hb.2 (by omega)).2, (hr.2 (by omega)).2⟩⟩
  | element v rest ih =>
    obtain ⟨e, he⟩ := Option.isSome_iff_exists.mp (hj.1.elem float).2
    have hr := ih hj.2 n in_array
    simp only [stored, faithful, (hj.1.elem float).1, he, calls_append, List.length_append]
    cases in_array with
    | true =>
      simp only [if_true]
      exact ⟨by omega, fun h => ⟨.inl trivial, (hr.2 (by omega)).2⟩⟩
    | false =>
      simp only [Bool.false_eq_true, if_false, calls_leafOf, Option.map_none, Option.map_some,
        Option.toList_none, Option.toList_some, List.length_nil, List.length_singleton]
      exact ⟨by omega, fun h => by omega⟩
  | elementIn c body rest ihb ih =>
    have hb := ihb hj.2.1 n in_array
    have hr := ih hj.2.2 (n + body.names.length) (in_array && body.isEmpty)
    simp only [stored, faithful, calls_node, List.length_append, List.length_cons]
    refine ⟨by omega, fun h => ?_⟩
    obtain ⟨hflag, hkr⟩ := hr.2 (by omega)
    have hkb := (hb.2 (by omega)).2
    rw [Bool.and_eq_true] at hflag
    exact ⟨hflag.imp_left And.left, hflag.imp_left And.right, hkb, hkr⟩

end Json

/-- The open containers after an invocation. -/
def Seen.nest (opened : List Kind) : Seen → List Kind
  | .mapOpen _ => .map :: opened
  | .arrayOpen _ => .array :: opened
  | .mapClose | .arrayClose => opened.tail
  | _ => opened

def Seen.unkeyed (opened : List Kind) : Seen → Seen
  | .mapOpen key => .mapOpen (if opened.head? = some .array then 0 else key)
  | s => s

/-- What is seen of a document, less the keys of the maps directly in an array. -/
def blur : List Kind → List Seen → List Seen
  | _, [] => []
  | opened, s :: l => s.unkeyed opened :: blur (s.nest opened) l

theorem blur_length (opened : List Kind) (l : List Seen) : (blur opened l).length = l.length := by
  induction l generalizing opened with
  | nil => rfl
  | cons s l ih => rw [blur, List.length_cons, List.length_cons, ih]

theorem expected_length (deep : Int) (cs : List Call) : (expected deep cs).length = cs.length := by
  fun_induction expected deep cs <;> simp only [List.length_nil, List.length_cons, *]

/-- The data document has the tree of the text, with one record for each scalar. -/
def HoldsTree (h : Bkv) (j : Json .map) : Prop :=
  ∃ seen, readBack h = .ok (bkvOk, seen) ∧
    blur [] seen =
      blur [] (expected 0 (calls (.node (.map, bkvNoKey) (j.faithful directKey 0) .nil)))

theorem directKey_within {n : Nat} (hn : n ≤ 4091) : directKey n ≤ 0xFFC := by
  rw [UInt16.le_iff_toNat_le, directKey, UInt16.toNat_ofNat', Nat.mod_eq_of_lt (by omega)]
  exact Nat.succ_le_succ hn

theorem dictionary_within {ws : List (UInt16 × List UInt8)} {bound : UInt16}
    (h : ∀ p ∈ ws, p.1 ≤ bound) : ∀ c ∈ calls (dictionary ws), c.Within bound := by
  induction ws with
  | nil => simp [dictionary]
  | cons p ws ih =>
    rw [List.forall_mem_cons] at h
    rw [dictionary, calls_leaf, List.forall_mem_cons]
    exact ⟨h.1, ih h.2⟩

theorem numbered_le {ws : List (List UInt8)} {n : Nat} (hn : n + ws.length ≤ 4091) :
    ∀ p ∈ numbered n ws, p.1 ≤ 0xFFF := by
  induction ws generalizing n with
  | nil => simp [numbered]
  | cons w ws ih =>
    rw [List.length_cons] at hn
    rw [numbered, List.forall_mem_cons]
    exact ⟨directKey_le (by omega), ih (by omega)⟩

/-- The tree is there exactly when no array has a scalar after an object with members. -/
theorem holdsTree_iff (float : List UInt8 → UInt32) (hg : Granted env) (heap : Heap) {j : Json .map}
    (hj : j.Forall Value.Admissible fun k c => k.holds c) (hn : j.names.length ≤ 4091)
    (hsize : ∀ r h, bkvFromJson env heap float .direct j.text = .ok (r, some h) →
      h.writeOffset ≤ 65535) :
    ∃ h, bkvFromJson env heap float .direct j.text = .ok (bkvOk, some h) ∧
      (HoldsTree h j ↔ j.Kept) := by
  obtain ⟨h, hrun, hs⟩ := direct_document float hg heap
    (hj.imp (fun _ _ => trivial) fun _ _ h => h) hn
  refine ⟨h, hrun, ?_⟩
  have hkeys : ∀ i, i ≤ 0 + j.names.length → directKey i ≤ 0xFFC := fun i hi =>
    directKey_within (by omega)
  have hcalls := stored_calls float j false hkeys
  have hread := readBack_document hs (hsize _ _ hrun) (fun c hc => (hcalls c hc).1)
    (dictionary_within (numbered_le (by omega))) fun c hc => (hcalls c hc).2
  constructor
  · rintro ⟨seen, hseen, hblur⟩
    rw [hread] at hseen
    cases hseen
    have hlen := congrArg List.length hblur
    simp only [blur_length, expected_length, calls_node, List.length_cons,
      List.length_append] at hlen
    exact ((Json.stored_length float directKey j hj 0 false).2 (by omega)).2
  · intro hk
    refine ⟨_, hread, ?_⟩
    rw [Json.stored_eq j hj hk (.inr (Json.hasElement_map j))]

/-- With the direct dictionary the reader loses no value and misplaces none, if and only if no
array of the text has a scalar after an object with members. -/
theorem stores_tree_iff (env : Env) (hg : Granted env) (heap : Heap) (float : List UInt8 → UInt32)
    (j : Json .map) (hj : j.Forall Value.Admissible fun k c => k.holds c)
    (hn : j.names.length ≤ 4091)
    (hsize : ∀ r h, bkvFromJson env heap float .direct j.text = .ok (r, some h) →
      h.writeOffset ≤ 65535) :
    (∀ h, bkvFromJson env heap float .direct j.text = .ok (bkvOk, some h) → HoldsTree h j) ↔
      j.Kept := by
  obtain ⟨h, hrun, hiff⟩ := holdsTree_iff float hg heap hj hn hsize
  rw [← hiff]
  constructor
  · exact fun hall => hall h hrun
  · intro hh h' hrun'
    rw [hrun] at hrun'
    cases hrun'
    exact hh

theorem calmEnv_granted : Granted calmEnv := ⟨fun _ => rfl, rfl, fun _ => rfl⟩

/-- An allocator that never fails. -/
def calmHeap : Heap := ⟨fun _ => true, 0⟩

def writtenSize : Except KeyFault (Int × Option Bkv) → Nat
  | .ok (_, some h) => h.writeOffset
  | _ => 0

theorem writtenSize_le {x : Except KeyFault (Int × Option Bkv)} (hx : writtenSize x ≤ 65535) :
    ∀ r h, x = .ok (r, some h) → h.writeOffset ≤ 65535 := by
  rintro r h rfl
  exact hx

/-- The object `{"a":[{"b":1},2]}`. -/
def lostText : Json .map :=
  .memberIn [0x61] .array (.elementIn .map (.member [0x62] (.number [0x31]) .nil)
    (.element (.number [0x32]) .nil)) .nil

theorem lostText_admissible : lostText.Forall Value.Admissible fun k c => k.holds c := by
  simp [lostText, Json.Forall, Value.Admissible, Kind.holds, isdigit, decimalValue]

theorem lostText_loses :
    ∃ h, bkvFromJson calmEnv calmHeap (fun _ => 0) .direct lostText.text = .ok (bkvOk, some h) ∧
      ¬HoldsTree h lostText := by
  obtain ⟨h, hrun, hiff⟩ := holdsTree_iff (fun _ => 0) calmEnv_granted calmHeap
    lostText_admissible (by decide) (writtenSize_le (by decide +kernel))
  refine ⟨h, hrun, ?_⟩
  rw [hiff]
  simp [lostText, Json.Kept, Json.isEmpty, Json.hasElement]

/-- The object `{"a":[2,{"b":1},{}],"c":true}`. -/
def keptText : Json .map :=
  .memberIn [0x61] .array (.element (.number [0x32]) (.elementIn .map
    (.member [0x62] (.number [0x31]) .nil) (.elementIn .map .nil .nil)))
    (.member [0x63] (.boolean true) .nil)

theorem keptText_admissible : keptText.Forall Value.Admissible fun k c => k.holds c := by
  simp [keptText, Json.Forall, Value.Admissible, Kind.holds, isdigit, decimalValue]

theorem stores_tree_iff_kept : keptText.Kept ∧ ∀ h,
    bkvFromJson calmEnv calmHeap (fun _ => 0) .direct keptText.text = .ok (bkvOk, some h) →
      HoldsTree h keptText := by
  have hkept : keptText.Kept := by simp [keptText, Json.Kept, Json.isEmpty, Json.hasElement]
  exact ⟨hkept, (stores_tree_iff calmEnv calmEnv_granted calmHeap (fun _ => 0) keptText
    keptText_admissible (by decide) (writtenSize_le (by decide +kernel))).mpr hkept⟩

end Wtools
