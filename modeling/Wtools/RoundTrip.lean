import Wtools.JsonRender

/-!
# The round trip

A document whose keys all have their names gives the tokens of the text it was made from.
With the direct dictionary every name is numbered and found again, so the text comes back.
-/

namespace Wtools
open ByteMemory Forest

variable {accept : Accept} {names : Names}

/-- The generator call that stands for an event; there is none for a null and for a number. -/
def JsonEvent.call? : JsonEvent → Option GenCall
  | null | number _ => none
  | boolean v => some (.boolean v)
  | string s | mapKey s => some (.string s)
  | startMap => some .mapOpen
  | endMap => some .mapClose
  | startArray => some .arrayOpen
  | endArray => some .arrayClose

/-- The tokens of the contents of a container. -/
def Json.tokens {k : Kind} (j : Json k) : List GenCall := j.events.filterMap JsonEvent.call?

/-- A generator that takes each token that is legal where it comes: one with which what was
taken begins a text. -/
def Accept.Lawful (accept : Accept) : Prop :=
  ∀ (j : Json .map) (taken rest : List GenCall) (c : GenCall),
    j.text.map JsonEvent.call? = (taken ++ c :: rest).map some → accept taken c

/-- Tokens that are taken one after the other. -/
def Takes (accept : Accept) : List GenCall → List GenCall → Prop
  | _, [] => True
  | taken, c :: cs => accept taken c ∧ Takes accept (taken ++ [c]) cs

theorem takes_append {taken cs ds : List GenCall} :
    Takes accept taken (cs ++ ds) ↔ Takes accept taken cs ∧ Takes accept (taken ++ cs) ds := by
  induction cs generalizing taken with
  | nil => simp [Takes]
  | cons c cs ih => simp [Takes, ih, and_assoc]

theorem Accept.Lawful.takes (ha : accept.Lawful) (j : Json .map) {taken cs : List GenCall}
    (hj : j.text.map JsonEvent.call? = (taken ++ cs).map some) : Takes accept taken cs := by
  induction cs generalizing taken with
  | nil => trivial
  | cons c cs ih => exact ⟨ha j taken cs c hj, ih (by simpa using hj)⟩

def Gen.extend (g : Gen) (ts : List GenCall) : Gen := ⟨g.made ++ ts, g.taken ++ ts⟩

theorem extend_extend (g : Gen) (ts us : List GenCall) :
    (g.extend ts).extend us = g.extend (ts ++ us) := by
  simp [Gen.extend]

theorem call_extend {g : Gen} {c : GenCall} (h : accept g.taken c) :
    g.call accept c = (true, g.extend [c]) := by
  simp [Gen.call, Gen.extend, h]

theorem calls_extend {g : Gen} {ts : List GenCall} (h : Takes accept g.taken ts) :
    g.calls accept ts = (true, g.extend ts) := by
  induction ts generalizing g with
  | nil => simp [Gen.calls, Gen.extend]
  | cons c ts ih =>
    rw [Gen.calls, call_extend h.1]
    simp only [if_true, ih (g := g.extend [c]) h.2, extend_extend, List.singleton_append]

/-- After `n` names, the names that follow are those of the keys in force. -/
def Resolves (names : Names) (key : Nat → UInt16) : Nat → List (List UInt8) → Prop
  | _, [] => True
  | n, w :: ws => names (key (n + 1)) = some w ∧ Resolves names key (n + 1) ws

theorem resolves_append {key : Nat → UInt16} {n : Nat} {ws ws' : List (List UInt8)} :
    Resolves names key n (ws ++ ws') ↔
      Resolves names key n ws ∧ Resolves names key (n + ws.length) ws' := by
  induction ws generalizing n with
  | nil => simp [Resolves]
  | cons w ws ih => simp [Resolves, ih, and_assoc, Nat.add_assoc, Nat.add_comm 1]

/-- Strings and booleans. -/
def Value.Textual : Value → Prop
  | boolean _ => True
  | string s => s.length ≤ 65535
  | _ => False

theorem Value.Textual.scalar {v : Value} (hv : v.Textual) :
    ∃ s t, v.asScalar = some s ∧ s.token? = some t ∧ v.event.call? = some t := by
  cases v with
  | boolean b => exact ⟨_, _, rfl, rfl, rfl⟩
  | string s => exact ⟨_, _, rfl, rfl, rfl⟩
  | _ => exact hv.elim

theorem Value.Textual.elem {v : Value} (hv : v.Textual) :
    ∃ e t, v.asElem = some e ∧ e.scalar.token? = some t ∧ v.event.call? = some t := by
  cases v with
  | boolean b => exact ⟨_, _, rfl, rfl, rfl⟩
  | string s => exact ⟨_, _, rfl, rfl, rfl⟩
  | _ => exact hv.elim

theorem tokens_member {v : Value} {t : GenCall} (ht : v.event.call? = some t) (name : List UInt8)
    (rest : Json .map) : (Json.member name v rest).tokens = [.string name, t] ++ rest.tokens := by
  have hn : (JsonEvent.mapKey name).call? = some (.string name) := rfl
  rw [Json.tokens, Json.events, List.filterMap_cons_some hn, List.filterMap_cons_some ht]
  rfl

theorem tokens_element {v : Value} {t : GenCall} (ht : v.event.call? = some t)
    (rest : Json .array) : (Json.element v rest).tokens = [t] ++ rest.tokens := by
  rw [Json.tokens, Json.events, List.filterMap_cons_some ht]
  rfl

theorem tokens_memberIn (name : List UInt8) (c : Kind) (body : Json c) (rest : Json .map) :
    (Json.memberIn name c body rest).tokens =
      [.string name, startToken c] ++ (body.tokens ++ ([endToken c] ++ rest.tokens)) := by
  have hn : (JsonEvent.mapKey name).call? = some (.string name) := rfl
  have hs : (startEvent c).call? = some (startToken c) := by cases c <;> rfl
  have he : (endEvent c).call? = some (endToken c) := by cases c <;> rfl
  rw [Json.tokens, Json.events, List.filterMap_cons_some hn, List.filterMap_cons_some hs,
    List.filterMap_append, List.filterMap_cons_some he]
  rfl

theorem tokens_elementIn (c : Kind) (body : Json c) (rest : Json .array) :
    (Json.elementIn c body rest).tokens =
      [startToken c] ++ (body.tokens ++ ([endToken c] ++ rest.tokens)) := by
  have hs : (startEvent c).call? = some (startToken c) := by cases c <;> rfl
  have he : (endEvent c).call? = some (endToken c) := by cases c <;> rfl
  rw [Json.tokens, Json.events, List.filterMap_cons_some hs, List.filterMap_append,
    List.filterMap_cons_some he]
  rfl

theorem render_opening (k : Kind) {key : UInt16} {w : List UInt8} (hn : names key = some w)
    (hmap : k = .map → key ≠ bkvNoKey ∧ w ≠ []) {g : Gen}
    (ha : Takes accept g.taken [.string w, startToken k]) :
    renderCall accept names (.opening k key) g = (false, g.extend [.string w, startToken k]) := by
  cases k with
  | map =>
    obtain ⟨hkey, hw⟩ := hmap rfl
    rw [renderCall, if_neg hkey, hn]
    simp only [List.length_pos_iff.mpr hw, if_true, call_extend ha.1]
    rw [call_extend ha.2.1, extend_extend]
    rfl
  | array =>
    rw [renderCall, hn]
    simp only [startToken] at ha ⊢
    rw [calls_extend ha]
    rfl

theorem render_closing (k : Kind) {g : Gen} (ha : accept g.taken (endToken k)) :
    renderCall accept names (.closing k) g = (false, g.extend [endToken k]) := by
  rw [renderCall, call_extend ha]
  rfl

theorem render_add {e : Entry} {ts : List GenCall} (he : e.tokens? names = some ts) {g : Gen}
    (ha : Takes accept g.taken ts) : renderCall accept names (.add e) g = (false, g.extend ts) := by
  rw [renderCall, he]
  simp only [calls_extend ha]
  rfl

theorem render_faithful (h0 : names bkvNoKey = none) {key : Nat → UInt16} {k : Kind} (j : Json k)
    (hj : j.Forall Value.Textual fun k _ => k = .map) (hne : [] ∉ j.names) {n : Nat}
    (hr : Resolves names key n j.names) {g : Gen} (ha : Takes accept g.taken j.tokens) :
    render accept names (calls (j.faithful key n)) g = (false, g.extend j.tokens) := by
  induction j generalizing n g with
  | nil => simp [Json.faithful, render, renderWith, Json.tokens, Json.events, Gen.extend]
  | member name v rest ih =>
    obtain ⟨s, t, hs, hst, ht⟩ := hj.1.scalar
    rw [tokens_member ht, takes_append] at ha
    rw [Json.names, List.mem_cons, not_or] at hne
    have he : (Entry.keyed (key (n + 1)) s).tokens? names = some [.string name, t] := by
      rw [Entry.tokens?, hr.1, hst]
      rfl
    simp only [Json.faithful, hs, Option.map_some, calls_append, calls_leafOf, Option.toList_some,
      List.singleton_append]
    rw [render_cons, render_add he ha.1, if_neg Bool.false_ne_true, ih hj.2 hne.2 hr.2 ha.2,
      extend_extend, tokens_member ht]
  | memberIn name c body rest ihb ih =>
    rw [tokens_memberIn, takes_append, takes_append, takes_append] at ha
    obtain ⟨hopen, hbody, hclose, hrest⟩ := ha
    rw [Json.names, List.mem_cons, List.mem_append, not_or, not_or] at hne
    rw [Json.names, Resolves, resolves_append] at hr
    have hkey : key (n + 1) ≠ bkvNoKey := by
      intro hzero
      rw [hzero, h0] at hr
      cases hr.1
    rw [Json.faithful, calls_node, render_cons,
      render_opening c hr.1 (fun _ => ⟨hkey, Ne.symm hne.1⟩) hopen,
      if_neg Bool.false_ne_true, render_append,
      ihb hj.2.1 hne.2.1 hr.2.1 (g := g.extend _) hbody, if_neg Bool.false_ne_true, render_cons,
      render_closing c (g := (g.extend _).extend _) hclose.1, if_neg Bool.false_ne_true,
      ih hj.2.2 hne.2.2 hr.2.2 (g := ((g.extend _).extend _).extend _) hrest, extend_extend,
      extend_extend, extend_extend, tokens_memberIn]
  | element v rest ih =>
    obtain ⟨e, t, hs, hst, ht⟩ := hj.1.elem
    rw [tokens_element ht, takes_append] at ha
    have he : (Entry.elem e).tokens? names = some [t] := by
      rw [Entry.tokens?, hst]
      rfl
    simp only [Json.faithful, hs, Option.map_some, calls_append, calls_leafOf, Option.toList_some,
      List.singleton_append]
    rw [render_cons, render_add he ha.1, if_neg Bool.false_ne_true, ih hj.2 hne hr ha.2,
      extend_extend, tokens_element ht]
  | elementIn c body rest ihb ih => cases hj.1

/-- A text of strings and booleans, with its arrays directly in maps and no empty name. -/
def Json.Plain (j : Json .map) : Prop :=
  (j.Forall Value.Textual fun k _ => k = .map) ∧ [] ∉ j.names

theorem events_tokens {q : Kind → Kind → Prop} {k : Kind} (j : Json k)
    (hj : j.Forall (fun v => ∃ t, v.event.call? = some t) q) :
    j.events.map JsonEvent.call? = j.tokens.map some := by
  have hin : ∀ {c k : Kind} (body : Json c) (rest : Json k),
      body.events.map JsonEvent.call? = body.tokens.map some →
      rest.events.map JsonEvent.call? = rest.tokens.map some →
      (startEvent c :: (body.events ++ endEvent c :: rest.events)).map JsonEvent.call? =
        (startToken c :: (body.tokens ++ endToken c :: rest.tokens)).map some := by
    intro c k body rest hb hr
    rw [List.map_cons, List.map_append, List.map_cons, hb, hr]
    cases c <;> simp [JsonEvent.call?, startEvent, endEvent, startToken, endToken]
  induction j with
  | nil => rfl
  | member name v rest ih =>
    obtain ⟨t, ht⟩ := hj.1
    rw [tokens_member ht, Json.events, List.map_cons, List.map_cons, ht, ih hj.2]
    rfl
  | memberIn name c body rest ihb ih =>
    rw [tokens_memberIn, Json.events, List.map_cons, hin body rest (ihb hj.2.1) (ih hj.2.2)]
    rfl
  | element v rest ih =>
    obtain ⟨t, ht⟩ := hj.1
    rw [tokens_element ht, Json.events, List.map_cons, ht, ih hj.2]
    rfl
  | elementIn c body rest ihb ih =>
    rw [tokens_elementIn, Json.events, hin body rest (ihb hj.2.1) (ih hj.2.2)]
    rfl

theorem text_tokens {q : Kind → Kind → Prop} (j : Json .map)
    (hj : j.Forall (fun v => ∃ t, v.event.call? = some t) q) :
    j.text.map JsonEvent.call? = (.mapOpen :: (j.tokens ++ [.mapClose])).map some := by
  simp [Json.text, events_tokens j hj, JsonEvent.call?]

theorem Value.Textual.called {v : Value} (hv : v.Textual) : ∃ t, v.event.call? = some t := by
  obtain ⟨-, t, -, -, ht⟩ := hv.scalar
  exact ⟨t, ht⟩

theorem textual_text {q : Kind → Kind → Prop} (j : Json .map) (hj : j.Forall Value.Textual q) :
    j.text.map JsonEvent.call? = (.mapOpen :: (j.tokens ++ [.mapClose])).map some :=
  text_tokens j (hj.imp (fun _ hv => hv.called) fun _ _ h => h)

theorem render_text (ha : accept.Lawful) (h0 : names bkvNoKey = none) {key : Nat → UInt16}
    {j : Json .map} (hj : j.Plain) (hr : Resolves names key 0 j.names) :
    render accept names (calls (.node (.map, bkvNoKey) (j.faithful key 0) .nil)) ⟨[], []⟩ =
      (false, Gen.extend ⟨[], []⟩ (.mapOpen :: (j.tokens ++ [.mapClose]))) := by
  have ht : Takes accept [] (.mapOpen :: (j.tokens ++ [.mapClose])) :=
    ha.takes j (by rw [textual_text j hj.1]; rfl)
  obtain ⟨hopen, hrest⟩ := ht
  obtain ⟨hbody, hclose, -⟩ := takes_append.mp hrest
  have hroot : renderCall accept names (.opening .map bkvNoKey) ⟨[], []⟩ =
      (false, Gen.extend ⟨[], []⟩ [.mapOpen]) := by
    rw [renderCall, if_pos rfl]
    simp only [List.length_nil, Nat.lt_irrefl, if_false]
    rw [call_extend hopen]
    rfl
  rw [calls_node, render_cons, hroot, if_neg Bool.false_ne_true, render_append,
    render_faithful h0 j hj.1 hj.2 hr (g := Gen.extend _ _) hbody, if_neg Bool.false_ne_true,
    render_cons, render_closing .map (g := (Gen.extend _ _).extend _) hclose,
    if_neg Bool.false_ne_true, extend_extend, extend_extend]
  rfl

theorem Value.Textual.admissible {v : Value} (hv : v.Textual) : v.Admissible := by
  cases v with
  | boolean b => trivial
  | string s => exact hv
  | _ => exact hv.elim

theorem plain_kept {k : Kind} (j : Json k) (hj : j.Forall Value.Textual fun k _ => k = .map) :
    (j.Forall Value.Admissible fun k c => k.holds c) ∧ j.Kept := by
  refine ⟨hj.imp (fun _ => Value.Textual.admissible) fun k c hk => by subst hk; rfl, ?_⟩
  induction j with
  | nil => trivial
  | member name v rest ih => exact ih hj.2
  | memberIn name c body rest ihb ih => exact ⟨ihb hj.2.1, ih hj.2.2⟩
  | element v rest ih => exact ih hj.2
  | elementIn c body rest => cases hj.1

theorem faithful_shown {key : Nat → UInt16} {k : Kind} (j : Json k)
    (hj : j.Forall Value.Textual fun k _ => k = .map) {n : Nat}
    (hkeys : ∀ i, i ≤ n + j.names.length → key i ≤ 0xFFC) :
    ∀ c ∈ calls (j.faithful key n), c.Shown := by
  induction j generalizing n with
  | nil => simp [Json.faithful]
  | member name v rest ih =>
    obtain ⟨s, t, hs, hst, -⟩ := hj.1.scalar
    simp only [Json.names, List.length_cons] at hkeys
    simp only [Json.faithful, hs, calls_append, calls_leafOf, Option.map_some, Option.toList_some,
      List.singleton_append, List.forall_mem_cons]
    exact ⟨⟨hkeys _ (by omega), by rw [hst]; rfl⟩, ih hj.2 fun i hi => hkeys i (by omega)⟩
  | memberIn name c body rest ihb ih =>
    simp only [Json.names, List.length_cons, List.length_append] at hkeys
    simp only [Json.faithful, calls_node, List.forall_mem_cons, List.forall_mem_append]
    exact ⟨hkeys _ (by omega), ihb hj.2.1 fun i hi => hkeys i (by omega), trivial,
      ih hj.2.2 fun i hi => hkeys i (by omega)⟩
  | element v rest ih =>
    obtain ⟨s, t, hs, hst, -⟩ := hj.1.elem
    simp only [Json.faithful, hs, calls_append, calls_leafOf, Option.map_some, Option.toList_some,
      List.singleton_append, List.forall_mem_cons]
    exact ⟨by rw [Call.Shown, hst]; rfl, ih hj.2 hkeys⟩
  | elementIn c body rest => cases hj.1

theorem directKey_toNat {n : Nat} (hn : n ≤ 4091) : (directKey n).toNat = n + 1 := by
  rw [directKey, UInt16.toNat_ofNat', Nat.mod_eq_of_lt (by omega)]

theorem resolves_numbered (pre : List (UInt16 × List UInt8)) {n : Nat} {ws : List (List UInt8)}
    (hn : n + ws.length ≤ 4091) (hpre : ∀ p ∈ pre, p.1.toNat ≤ n + 1) :
    Resolves (fun key => (pre ++ numbered n ws).lookup key) directKey n ws := by
  induction ws generalizing n pre with
  | nil => trivial
  | cons w ws ih =>
    rw [List.length_cons] at hn
    have hkey := directKey_toNat (n := n + 1) (by omega)
    have hnone : pre.lookup (directKey (n + 1)) = none := by
      rw [List.lookup_eq_none_iff]
      intro p hp
      have := hpre p hp
      rw [bne_iff_ne]
      intro hkp
      rw [← hkp] at this
      omega
    have hrest := ih (pre ++ [(directKey (n + 1), w)]) (n := n + 1) (by omega) (by
      simp only [List.forall_mem_append, List.forall_mem_cons]
      exact ⟨fun p hp => by have := hpre p hp; omega, by omega, by simp⟩)
    rw [List.append_assoc] at hrest
    exact ⟨by simp [numbered, List.lookup_append, hnone], hrest⟩

theorem numbered_zero {n : Nat} {ws : List (List UInt8)} (hn : n + ws.length ≤ 4091) :
    (numbered n ws).lookup bkvNoKey = none := by
  induction ws generalizing n with
  | nil => rfl
  | cons w ws ih =>
    rw [List.length_cons] at hn
    have hkey := directKey_toNat (n := n + 1) (by omega)
    have hne : (bkvNoKey == directKey (n + 1)) = false := by
      rw [beq_eq_false_iff_ne]
      intro h0
      rw [← h0] at hkey
      cases hkey
    rw [numbered, List.lookup_cons, hne]
    exact ih (by omega)

/-- With the direct dictionary both conversions succeed, and the calls are the tokens. -/
theorem direct_tokens {env : Env} (hg : Granted env) (heap : Heap) (float : List UInt8 → UInt32)
    (ha : accept.Lawful) {j : Json .map} (hj : j.Plain) (hn : j.names.length ≤ 4091)
    (hsize : ∀ r h, bkvFromJson env heap float .direct j.text = .ok (r, some h) →
      h.writeOffset ≤ 65535) :
    ∃ h g, bkvFromJson env heap float .direct j.text = .ok (bkvOk, some h) ∧
      bkvToJson env accept h = .ok (bkvOk, g) ∧ g.made = .mapOpen :: (j.tokens ++ [.mapClose]) := by
  obtain ⟨hadm, hkept⟩ := plain_kept j hj.1
  obtain ⟨h, hrun, hs⟩ :=
    direct_document float hg heap (hadm.imp (fun _ _ => trivial) fun _ _ h => h) hn
  rw [Json.stored_eq j hadm hkept (.inr (Json.hasElement_map j))] at hs
  have hjson := toJson_document env accept hs (hsize _ _ hrun)
    (faithful_shown j hj.1 fun i hi => directKey_within (by omega)) (numbered_le (by omega))
  have hr : Resolves (fun key => (numbered 0 j.names).lookup key) directKey 0 j.names :=
    resolves_numbered [] (by omega) nofun
  rw [render_text ha (numbered_zero (by omega)) hj hr] at hjson
  exact ⟨h, _, hrun, hjson, rfl⟩

/-- Text to document to text through the direct dictionary: both conversions succeed and the
generator calls are the events of the text. -/
theorem round_trip (env : Env) (hg : Granted env) (heap : Heap) (float : List UInt8 → UInt32)
    (accept : Accept) (ha : accept.Lawful) (j : Json .map) (hj : j.Plain)
    (hn : j.names.length ≤ 4091)
    (hsize : ∀ r h, bkvFromJson env heap float .direct j.text = .ok (r, some h) →
      h.writeOffset ≤ 65535) :
    ∃ h g, bkvFromJson env heap float .direct j.text = .ok (bkvOk, some h) ∧
      bkvToJson env accept h = .ok (bkvOk, g) ∧
      g.made.map some = j.text.map JsonEvent.call? := by
  obtain ⟨h, g, hrun, hjson, hmade⟩ := direct_tokens hg heap float ha hj hn hsize
  exact ⟨h, g, hrun, hjson, by rw [hmade, textual_text j hj.1]⟩

/-- The object `{"a":["x",true],"b":{"c":"y"}}`. -/
def plainText : Json .map :=
  .memberIn [0x61] .array (.element (.string [0x78]) (.element (.boolean true) .nil))
    (.memberIn [0x62] .map (.member [0x63] (.string [0x79]) .nil) .nil)

theorem plainText_plain : plainText.Plain := by
  simp [Json.Plain, plainText, Json.Forall, Value.Textual, Json.names]

theorem round_trip_nested :
    ∃ h g, bkvFromJson calmEnv calmHeap (fun _ => 0) .direct plainText.text = .ok (bkvOk, some h) ∧
      bkvToJson calmEnv (fun _ _ => true) h = .ok (bkvOk, g) ∧
      g.made.map some = plainText.text.map JsonEvent.call? :=
  round_trip calmEnv calmEnv_granted calmHeap (fun _ => 0) (fun _ _ => true) (fun _ _ _ _ _ => rfl)
    plainText plainText_plain (by decide) (writtenSize_le (by decide +kernel))

end Wtools
