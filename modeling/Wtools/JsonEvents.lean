import Wtools.CachedDico

/-!
# A text event by event

The JSON reader followed along the events alone, so that a text may stop anywhere and arrays may
stand in arrays. The writer refuses an array directly in an array, and the end of the inner one then
closes the outer one; what it holds open is a function of the events. The maps it holds open are
always those of the text.
-/

namespace Wtools
open ByteMemory Forest

section Text

/-- The containers a text has open below its root, from the innermost, and the number of its names. -/
abbrev Place := List Kind × Nat

/-- The events that can follow at a place; a container has a name before it. -/
def place : Place → JsonEvent → Option Place
  | (ks, n), .mapKey _ => some (ks, n + 1)
  | (ks, n), .startMap => if 0 < n then some (.map :: ks, n) else none
  | (ks, n), .startArray => if 0 < n then some (.array :: ks, n) else none
  | (.map :: ks, n), .endMap => some (ks, n)
  | (.array :: ks, n), .endArray => some (ks, n)
  | q, .null | q, .boolean _ | q, .number _ | q, .string _ => some q
  | _, _ => none

def places : Place → List JsonEvent → Option Place
  | q, [] => some q
  | q, e :: es => (place q e).bind fun q' => places q' es

theorem places_append (q : Place) (es es' : List JsonEvent) :
    places q (es ++ es') = (places q es).bind fun q' => places q' es' := by
  induction es generalizing q with
  | nil => rfl
  | cons e es ih =>
    rw [List.cons_append, places, places, Option.bind_assoc]
    exact congrArg _ (funext ih)

theorem place_value (q : Place) (v : Value) : place q v.event = some q := by
  cases v <;> rfl

theorem place_start {ks : List Kind} {n : Nat} (hn : 0 < n) (c : Kind) :
    place (ks, n) (startEvent c) = some (c :: ks, n) := by
  cases c <;> simp [place, startEvent, hn]

theorem place_end (ks : List Kind) (n : Nat) (c : Kind) :
    place (c :: ks, n) (endEvent c) = some (ks, n) := by
  cases c <;> rfl

theorem place_name (ks : List Kind) (n : Nat) (name : List UInt8) :
    place (ks, n) (.mapKey name) = some (ks, n + 1) := by
  unfold place
  rfl

/-- The contents of a container lead back to the place where they began. -/
theorem places_contents {k : Kind} (j : Json k) {ks : List Kind} {n : Nat}
    (hn : k = .array → 0 < n) : places (ks, n) j.events = some (ks, n + j.names.length) := by
  induction j generalizing ks n with
  | nil => rfl
  | member name v rest ih =>
    rw [Json.events, places, place_name, Option.bind_some, places, place_value, Option.bind_some,
      ih (by simp), Json.names, List.length_cons, Nat.add_assoc, Nat.add_comm 1]
  | memberIn name c body rest ihb ih =>
    rw [Json.events, places, place_name, Option.bind_some, places, place_start (Nat.succ_pos n),
      Option.bind_some, places_append, ihb (fun _ => Nat.succ_pos n), Option.bind_some, places,
      place_end, Option.bind_some, ih (by simp), Json.names, List.length_cons, List.length_append]
    exact congrArg (fun i => some (ks, i)) (by omega)
  | element v rest ih =>
    rw [Json.events, places, place_value, Option.bind_some, ih hn, Json.names]
  | elementIn c body rest ihb ih =>
    have hpos := hn rfl
    rw [Json.events, places, place_start hpos, Option.bind_some, places_append,
      ihb (fun _ => hpos), Option.bind_some, places, place_end, Option.bind_some,
      ih (fun _ => Nat.add_pos_left hpos _), Json.names, List.length_append, Nat.add_assoc]

theorem prefix_places {q q' : Place} {es text : List JsonEvent} (h : es <+: text)
    (ht : places q text = some q') : ∃ q₁, places q es = some q₁ := by
  obtain ⟨rest, rfl⟩ := h
  rw [places_append] at ht
  obtain ⟨q₁, hq, -⟩ := Option.bind_eq_some_iff.mp ht
  exact ⟨q₁, hq⟩

end Text

section Held

/-- The containers that the writer holds open after an event. The root map is left open at its end. -/
def hold : List Kind → JsonEvent → List Kind
  | s, .startMap => .map :: s
  | .array :: s, .startArray => .array :: s
  | s, .startArray => .array :: s
  | [.map], .endMap => [.map]
  | .map :: s, .endMap => s
  | .array :: s, .endArray => s
  | s, _ => s

/-- The containers that the writer holds open after the events of a text. -/
def held (es : List JsonEvent) : List Kind := es.foldl hold []

/-- The writer never holds more containers of a text open than its nesting stack has entries. -/
def Shallow (es : List JsonEvent) : Prop := ∀ es' ∈ es.inits, (held es').length ≤ 32

instance (es : List JsonEvent) : Decidable (Shallow es) :=
  inferInstanceAs (Decidable (∀ es' ∈ es.inits, (held es').length ≤ 32))

/-- What a text has open, and what the writer holds open of it: every map, and of the arrays above
a map at most one. -/
inductive Keeps : List Kind → List Kind → Prop
  | nil : Keeps [] []
  | plain {ks s : List Kind} (m : Nat) (h : Keeps ks s) :
      Keeps (List.replicate m .array ++ .map :: ks) (.map :: s)
  | array {ks s : List Kind} (m : Nat) (h : Keeps ks s) :
      Keeps (List.replicate (m + 1) .array ++ .map :: ks) (.array :: .map :: s)

variable {ks s : List Kind}

theorem Keeps.startMap (h : Keeps ks s) : Keeps (.map :: ks) (hold s .startMap) := by
  have hstart : hold s .startMap = .map :: s := by
    unfold hold
    rfl
  rw [hstart]
  exact .plain 0 h

theorem Keeps.startArray (h : Keeps ks s) (hne : ks ≠ []) :
    Keeps (.array :: ks) (hold s .startArray) := by
  cases h with
  | nil => exact absurd rfl hne
  | plain m h => exact .array m h
  | array m h => exact .array (m + 1) h

theorem Keeps.endMap (h : Keeps (.map :: ks) s) (hne : ks ≠ []) : Keeps ks (hold s .endMap) := by
  generalize hks : Kind.map :: ks = ks' at h
  cases h with
  | nil => cases hks
  | @plain ks₁ s m h =>
    cases m with
    | zero =>
      cases hks
      cases h with
      | nil => exact absurd rfl hne
      | plain m h => exact .plain m h
      | array m h => exact .array m h
    | succ m => cases hks
  | array m h => cases hks

theorem Keeps.endArray (h : Keeps (.array :: ks) s) : Keeps ks (hold s .endArray) := by
  generalize hks : Kind.array :: ks = ks' at h
  cases h with
  | nil => cases hks
  | plain m h =>
    cases m with
    | zero => cases hks
    | succ m =>
      cases hks
      exact .plain m h
  | array m h =>
    cases hks
    exact .plain m h

theorem keeps_nil (hne : ks ≠ []) : ¬Keeps ks [] := by
  intro h
  cases h
  exact hne rfl

theorem Keeps.head (h : Keeps (.map :: ks) s) : ∃ s', s = .map :: s' ∧ Keeps ks s' := by
  generalize hks : Kind.map :: ks = ks' at h
  cases h with
  | nil => cases hks
  | @plain ks₁ s' m h =>
    cases m with
    | zero =>
      cases hks
      exact ⟨s', rfl, h⟩
    | succ m => cases hks
  | array m h => cases hks

theorem hold_value (s : List Kind) (v : Value) : hold s v.event = s := by
  cases v <;> rcases s with - | ⟨_ | _, s⟩ <;> rfl

theorem hold_name (s : List Kind) (name : List UInt8) : hold s (.mapKey name) = s := by
  rcases s with - | ⟨_ | _, s⟩ <;> rfl

theorem Keeps.step {e : JsonEvent} {n n' : Nat} {ks' : List Kind} (h : Keeps (ks ++ [.map]) s)
    (hp : place (ks, n) e = some (ks', n')) : Keeps (ks' ++ [.map]) (hold s e) := by
  cases e with
  | null =>
    cases hp
    rwa [show JsonEvent.null = Value.event .null from rfl, hold_value]
  | boolean b =>
    cases hp
    rwa [show JsonEvent.boolean b = Value.event (.boolean b) from rfl, hold_value]
  | number text =>
    cases hp
    rwa [show JsonEvent.number text = Value.event (.number text) from rfl, hold_value]
  | string str =>
    cases hp
    rwa [show JsonEvent.string str = Value.event (.string str) from rfl, hold_value]
  | mapKey w =>
    rw [place_name, Option.some.injEq, Prod.mk.injEq] at hp
    obtain ⟨rfl, rfl⟩ := hp
    rwa [hold_name]
  | startMap =>
    simp only [place, Option.ite_none_right_eq_some, Option.some.injEq, Prod.mk.injEq] at hp
    obtain ⟨-, rfl, rfl⟩ := hp
    exact h.startMap
  | startArray =>
    simp only [place, Option.ite_none_right_eq_some, Option.some.injEq, Prod.mk.injEq] at hp
    obtain ⟨-, rfl, rfl⟩ := hp
    exact h.startArray (by simp)
  | endMap =>
    rcases ks with - | ⟨_ | _, ks⟩ <;> simp [place] at hp
    obtain ⟨rfl, rfl⟩ := hp
    exact h.endMap (by simp)
  | endArray =>
    rcases ks with - | ⟨_ | _, ks⟩ <;> simp [place] at hp
    obtain ⟨rfl, rfl⟩ := hp
    exact h.endArray

theorem Keeps.run {es : List JsonEvent} {n : Nat} {q : Place} (h : Keeps (ks ++ [.map]) s)
    (hp : places (ks, n) es = some q) : Keeps (q.1 ++ [.map]) (es.foldl hold s) := by
  induction es generalizing ks s n with
  | nil =>
    cases hp
    exact h
  | cons e es ih =>
    rw [places] at hp
    obtain ⟨⟨ks₁, n₁⟩, hplace, hp⟩ := Option.bind_eq_some_iff.mp hp
    exact ih (h.step hplace) hp

theorem keeps_root {s : List Kind} (h : Keeps [.map] s) : s = [.map] := by
  obtain ⟨s', rfl, hrest⟩ := h.head
  generalize hks : ([] : List Kind) = ks at hrest
  cases hrest with
  | nil => rfl
  | plain m h => simp at hks
  | array m h => simp at hks

theorem held_text (j : Json .map) : held j.text = [.map] := by
  have hroot : Keeps ([] ++ [.map]) [.map] := .plain 0 .nil
  have hbody : List.foldl hold [.map] j.events = [.map] :=
    keeps_root (hroot.run (places_contents j (n := 0) (by simp)))
  rw [held, Json.text, List.foldl_cons, List.foldl_append]
  change List.foldl hold (List.foldl hold [.map] j.events) [.endMap] = _
  rw [hbody]
  rfl

end Held

section Writer
variable {env : Env} {h : Bkv} {s : List Kind} {low : Prop}

/-- A handle that is in the middle of a document with the containers `s` open. As long as `low`
holds its keys fit the headers. -/
def Writing (low : Prop) (h : Bkv) (s : List Kind) : Prop :=
  ∃ fr outer, Sim h (.inside fr outer) ∧ (fr :: outer).map Frame.kind = s ∧
    (low → ∀ c ∈ (Position.inside fr outer).calls, c.Within 0xFFF)

theorem within_add {e : Entry} (hr : (Call.add e).inRange) : (Call.add e).Within 0xFFF := by
  cases e with
  | keyed key v => simpa [Call.inRange, Call.Within] using hr
  | elem v => trivial

theorem Writing.weaken {low' : Prop} (hw : Writing low h s) (hl : low' → low) :
    Writing low' h s := by
  obtain ⟨fr, outer, hs, hk, hc⟩ := hw
  exact ⟨fr, outer, hs, hk, fun h => hc (hl h)⟩

theorem within_snoc {p p' : Position} {c : Call} (hp : p.Legal) (ha : advance p c = some p')
    (hc : low → ∀ c ∈ p.calls, c.Within 0xFFF) (hw : low → c.Within 0xFFF) :
    low → ∀ c ∈ p'.calls, c.Within 0xFFF := by
  intro hl
  rw [advance_calls hp ha, List.forall_mem_append, List.forall_mem_singleton]
  exact ⟨hc hl, hw hl⟩

theorem Writing.add (hw : Writing low h s) (e : Entry) : Writing low (exec env h (.add e)).2 s := by
  obtain ⟨fr, outer, hs, hk, hc⟩ := hw
  rcases exec_refines env hs.ram hs.controls (.add e) with ⟨-, -, hh⟩ | ⟨p', hn, hx⟩
  · rw [hh]
    exact ⟨fr, outer, hs, hk, hc⟩
  · obtain ⟨hr, ha⟩ := next?_eq_some.mp hn
    have hcalls := within_snoc hs.legal ha hc fun _ => within_add hr
    rw [hx]
    cases advance_eq_some.mp ha with
    | add he => exact ⟨_, outer, hs.after env ha, hk, hcalls⟩

theorem Writing.opening (env : Env) (hw : Writing low h s) (k : Kind) {key : UInt16}
    (hkey : low → key ≤ 0xFFF) :
    Writing low (exec env h (.opening k key)).2 (hold s (startEvent k)) := by
  obtain ⟨fr, outer, hs, rfl, hc⟩ := hw
  rcases exec_refines env hs.ram hs.controls (.opening k key) with ⟨hn, -, hh⟩ | ⟨p', hn, hx⟩
  · have hrefused : fr.kind.holds k = false := by
      by_contra hholds
      rw [Bool.not_eq_false] at hholds
      simp [Position.next?, Call.inRange, advance, hholds] at hn
    rw [hh]
    refine ⟨fr, outer, hs, ?_, hc⟩
    cases k with
    | map => cases hkind : fr.kind <;> simp [hkind, Kind.holds] at hrefused
    | array =>
      cases hkind : fr.kind with
      | map => simp [hkind, Kind.holds] at hrefused
      | array => simp [hkind, hold, startEvent]
  · obtain ⟨hr, ha⟩ := next?_eq_some.mp hn
    have hcalls := within_snoc hs.legal ha hc fun hl => hkey hl
    rw [hx]
    cases advance_eq_some.mp ha with
    | opening key hholds =>
      refine ⟨_, _, hs.after env ha, ?_, hcalls⟩
      cases k with
      | map => simp [hold, startEvent]
      | array =>
        cases hkind : fr.kind with
        | map => simp [hkind, hold, startEvent]
        | array => simp [hkind, Kind.holds] at hholds

/-- The end of a container closes the innermost one that is held, if it is of the kind and not the
root. -/
theorem Writing.closing {k' : Kind} (hw : Writing low h (k' :: s)) {k : Kind}
    (hroot : s = [] → k ≠ k') :
    Writing low (exec env h (.closing k)).2 (hold (k' :: s) (endEvent k)) := by
  obtain ⟨fr, outer, hs, hkinds, hc⟩ := hw
  rw [List.map_cons, List.cons.injEq] at hkinds
  obtain ⟨rfl, rfl⟩ := hkinds
  rcases exec_refines env hs.ram hs.controls (.closing k) with ⟨hn, -, hh⟩ | ⟨p', hn, hx⟩
  · have hne : k ≠ fr.kind := by
      intro hk
      cases outer with
      | nil => exact hroot rfl hk
      | cons o outer => simp [Position.next?, Call.inRange, advance, hk] at hn
    rw [hh]
    refine ⟨fr, outer, hs, ?_, hc⟩
    cases k <;> cases hkind : fr.kind <;> simp [hkind, hold, endEvent] at hne ⊢
  · obtain ⟨hr, ha⟩ := next?_eq_some.mp hn
    have hcalls := within_snoc hs.legal ha hc fun _ => (trivial : (Call.closing k).Within 0xFFF)
    rw [hx]
    cases advance_eq_some.mp ha with
    | closeRoot => exact absurd rfl (hroot rfl)
    | closing fr o outer =>
      refine ⟨_, outer, hs.after env ha, ?_, hcalls⟩
      cases hkind : fr.kind <;> simp [hold, endEvent]

end Writer

section Reader
variable {env : Env} {float : List UInt8 → UInt32} {c c' : FromJsonCtx} {q q' : Place}
  {s : List Kind}

theorem numbered_append (n : Nat) (ws ws' : List (List UInt8)) :
    numbered n (ws ++ ws') = numbered n ws ++ numbered (n + ws.length) ws' := by
  induction ws generalizing n with
  | nil => rfl
  | cons w ws ih =>
    rw [List.cons_append, numbered, numbered, ih, List.cons_append, List.length_cons, Nat.add_assoc,
      Nat.add_comm 1]

/-- A dictionary that has taken names, not all of them when there were too many. -/
inductive DicoTaking (ws : List (List UInt8)) : DicoType → Dico → Prop
  | direct {h : Bkv} {recs : List (UInt16 × List UInt8)}
      (hs : Sim h (.inside ⟨.map, bkvDicoKey, dictionary recs⟩ [])) (hr : ∀ p ∈ recs, p.1 ≤ 0xFFF)
      (hn : ws.length ≤ 4091 → recs = numbered 0 ws) : DicoTaking ws .direct (.direct h)
  | cached {head : KeytreeHead} (heap : Heap) (hk : ws.length ≤ 4091 → head.top.All Index) :
      DicoTaking ws .cached (.cached head heap)

/-- One more name: it is never answered with a 0, and the key it is given fits as long as there are
not too many. -/
theorem DicoTaking.add {ws : List (List UInt8)} {type : DicoType} {d : Dico}
    (hd : DicoTaking ws type d) {w : List UInt8}
    {r : Int} {fin : UInt16} {d' : Option Dico}
    (h : bkvDicoKeyAdd env (some d) (.ofNat (ws.length + 2)) w = .ok (r, fin, d')) :
    r ≠ 0 ∧ (ws.length ≤ 4090 → r = bkvOk ∧ fin ≤ 0xFFC) ∧
      ∃ d₁, d' = some d₁ ∧ DicoTaking (ws ++ [w]) type d₁ := by
  have hlen : (ws ++ [w]).length ≤ 4091 → ws.length ≤ 4090 := by
    rw [List.length_append, List.length_singleton]
    omega
  cases hd with
  | @direct h₀ recs hs hr hn =>
    have hres := exec_result env hs (.add (.keyed (.ofNat (ws.length + 2)) (.str w)))
    have hkey : ws.length ≤ 4090 →
        (Call.add (.keyed (.ofNat (ws.length + 2)) (.str w))).inRange := by
      intro hlow
      exact decide_eq_true (directKey_le (n := ws.length + 1) (by omega))
    simp only [bkvDicoKeyAdd, dicoDirectKeyAdd, pure_ok, Except.ok.injEq, Prod.mk.injEq] at h
    obtain ⟨rfl, rfl, rfl⟩ := h
    rcases exec_refines env hs.ram hs.controls (.add (.keyed (.ofNat (ws.length + 2)) (.str w))) with
      ⟨hno, -, hh⟩ | ⟨p', hnext, hx⟩
    · have hhigh : ¬ws.length ≤ 4090 := by
        intro hlow
        rw [Position.next?, if_pos (hkey hlow)] at hno
        cases hno
      refine ⟨hres.1, fun hlow => absurd hlow hhigh, _, rfl, ?_⟩
      rw [show (bkvKvStrAdd env h₀ (.ofNat (ws.length + 2)) w).2 = h₀ from hh]
      exact .direct hs hr fun hlow => absurd (hlen hlow) hhigh
    · obtain ⟨hin, ha⟩ := next?_eq_some.mp hnext
      have hs' := hs.after env ha
      have hh : (bkvKvStrAdd env h₀ (.ofNat (ws.length + 2)) w).2 =
        h₀.after env (.add (.keyed (.ofNat (ws.length + 2)) (.str w))) := congrArg Prod.snd hx
      rw [← hh] at hs'
      have hle : UInt16.ofNat (ws.length + 2) ≤ 0xFFF := by simpa [Call.inRange] using hin
      refine ⟨hres.1, fun _ => ⟨congrArg Prod.fst hx, UInt16.zero_le⟩, _, rfl, ?_⟩
      cases advance_eq_some.mp ha with
      | add he =>
        have htaken : Sim (bkvKvStrAdd env h₀ (.ofNat (ws.length + 2)) w).2 (.inside
            ⟨.map, bkvDicoKey, dictionary (recs ++ [(.ofNat (ws.length + 2), w)])⟩ []) := by
          rw [dictionary_append]
          exact hs'
        refine .direct htaken ?_ ?_
        · rw [List.forall_mem_append, List.forall_mem_singleton]
          exact ⟨hr, hle⟩
        · intro hlow
          rw [hn (by have := hlen hlow; omega), numbered_append, Nat.zero_add]
          rfl
  | @cached head heap hk =>
    simp only [bkvDicoKeyAdd, dicoCachedKeyAdd] at h
    obtain ⟨⟨r', fin', head', heap'⟩, hadd, h⟩ := bind_ok h
    obtain ⟨added, hadded, hadd⟩ := bind_ok hadd
    cases hadd
    cases h
    have hall : ws.length ≤ 4090 → added.head.top.All Index ∧ ∀ v ∈ added.udata, Index v := by
      intro hlow
      exact wgKeytreeAdd_all (p := Index) UInt64.zero_le (index_of_le hlow) (hk (by omega)) hadded
    refine ⟨by simp [bkvOk], ?_, _, rfl, .cached _ fun hlow => (hall (hlen hlow)).1⟩
    intro hlow
    refine ⟨rfl, ?_⟩
    dsimp only
    split
    · cases hu : added.udata with
      | none => exact UInt16.zero_le
      | some v => exact ((hall hlow).2 v (by rw [hu]; rfl)).key_le
    · exact UInt16.zero_le

/-- The reader below the root of a text: at a place, with the containers `s` held open and the names
`ws` given. -/
structure Parsing (type : DicoType) (c : FromJsonCtx) (ks s : List Kind)
    (ws : List (List UInt8)) : Prop where
  writing : Writing (ws.length ≤ 4091) c.dataHandle s
  keeps : Keeps (ks ++ [.map]) s
  deep : c.deep = ks.length + 1
  keyIndex : c.keyIndex = .ofNat (ws.length + 1)
  index : 0 < ws.length → ws.length ≤ 4091 → c.index ≤ 0xFFF
  dico : ∃ d, c.dicoHandle = some d ∧ DicoTaking ws type d

variable {type : DicoType} {ks : List Kind} {ws : List (List UInt8)}

theorem Parsing.sim (hc : Parsing type c ks s ws) : ∃ p, Sim c.dataHandle p := by
  obtain ⟨fr, outer, hs, -⟩ := hc.writing
  exact ⟨_, hs⟩

theorem Parsing.value (hc : Parsing type c ks s ws) (v : Value) {r : Int}
    (h : jsonCallback env float v.event c = .ok (r, c')) :
    r ≠ 0 ∧ Parsing type c' ks (hold s v.event) ws := by
  obtain ⟨r', hcall, hr⟩ := callback_value env float hc.sim v
  rw [h, Except.ok.injEq, Prod.mk.injEq] at hcall
  obtain ⟨rfl, rfl⟩ := hcall
  rw [hold_value]
  refine ⟨hr, ?_⟩
  cases c.entry float v with
  | none => exact hc
  | some e => exact ⟨hc.writing.add e, hc.keeps, hc.deep, hc.keyIndex, hc.index, hc.dico⟩

theorem Parsing.name (hc : Parsing type c ks s ws) {w : List UInt8} {r : Int}
    (h : jsonCallback env float (.mapKey w) c = .ok (r, c')) :
    r ≠ 0 ∧ Parsing type c' ks s (ws ++ [w]) := by
  obtain ⟨d, hd, htaking⟩ := hc.dico
  have hlen : (ws ++ [w]).length = ws.length + 1 := by simp
  rw [jsonCallback, bkvJsonMapKeys, hc.keyIndex, index_succ, hd] at h
  obtain ⟨⟨r', fin, d'⟩, hadd, h⟩ := bind_ok h
  obtain ⟨hr, hfin, d₁, rfl, htaking'⟩ := htaking.add hadd
  have hwriting : Writing ((ws ++ [w]).length ≤ 4091) c.dataHandle s := by
    apply hc.writing.weaken
    rw [hlen]
    omega
  dsimp only at h
  split at h
  · rename_i hne
    cases h
    refine ⟨hr, hwriting, hc.keeps, hc.deep, by rw [hlen], ?_, _, rfl, htaking'⟩
    intro _ hlow
    rw [hlen] at hlow
    exact absurd (hfin (by omega)).1 hne
  · cases h
    refine ⟨hr, hwriting, hc.keeps, hc.deep, by rw [hlen], ?_, _, rfl, htaking'⟩
    intro _ hlow
    rw [hlen] at hlow
    rw [FromJsonCtx.index]
    split
    · exact UInt16.le_trans (hfin (by omega)).2 (by decide)
    · exact directKey_le (n := ws.length + 1) (by omega)

theorem Parsing.start (hc : Parsing type c ks s ws) (hn : 0 < ws.length) (k : Kind) {r : Int}
    (h : jsonCallback env float (startEvent k) c = .ok (r, c')) :
    r ≠ 0 ∧ Parsing type c' (k :: ks) (hold s (startEvent k)) ws := by
  obtain ⟨p, hs⟩ := hc.sim
  have hdeep : 0 < c.deep := by
    rw [hc.deep]
    omega
  have hr := (exec_result env hs (.opening k c.index)).2
  have hwriting := hc.writing.opening env k fun hlow => hc.index hn hlow
  have hd : c.deep + 1 = ((k :: ks).length : Int) + 1 := by
    rw [hc.deep, List.length_cons]
    omega
  cases k with
  | map =>
    simp [startEvent, jsonCallback, bkvJsonStartMap, hdeep, write_eq, hr] at h
    obtain ⟨rfl, rfl⟩ := h
    exact ⟨by decide, hwriting, hc.keeps.startMap, hd, hc.keyIndex, hc.index, hc.dico⟩
  | array =>
    simp [startEvent, jsonCallback, bkvJsonStartArray, hdeep, write_eq, hr] at h
    obtain ⟨rfl, rfl⟩ := h
    exact ⟨by decide, hwriting, hc.keeps.startArray (by simp), hd, hc.keyIndex, hc.index, hc.dico⟩

theorem Parsing.finish {k : Kind} (hc : Parsing type c (k :: ks) s ws) {r : Int}
    (h : jsonCallback env float (endEvent k) c = .ok (r, c')) :
    r ≠ 0 ∧ Parsing type c' ks (hold s (endEvent k)) ws := by
  obtain ⟨p, hs⟩ := hc.sim
  have hdeep : 1 < c.deep := by
    rw [hc.deep, List.length_cons]
    omega
  have hr := (exec_result env hs (.closing k)).2
  have hd : c.deep - 1 = (ks.length : Int) + 1 := by
    rw [hc.deep, List.length_cons]
    omega
  have hkeeps := hc.keeps
  cases k with
  | map =>
    obtain ⟨s', rfl, hrest⟩ := hkeeps.head
    have hroot : s' = [] → Kind.map ≠ .map := by
      rintro rfl
      exact absurd hrest (keeps_nil (by simp))
    simp [endEvent, jsonCallback, bkvJsonEndMap, hdeep, write_eq, hr] at h
    obtain ⟨rfl, rfl⟩ := h
    exact ⟨by decide, hc.writing.closing hroot, hkeeps.endMap (by simp), hd, hc.keyIndex, hc.index,
      hc.dico⟩
  | array =>
    simp [endEvent, jsonCallback, bkvJsonEndArray, hdeep, write_eq, hr] at h
    obtain ⟨rfl, rfl⟩ := h
    refine ⟨by decide, ?_, hkeeps.endArray, hd, hc.keyIndex, hc.index, hc.dico⟩
    cases s with
    | nil => exact absurd hkeeps (keeps_nil (by simp))
    | cons k' s =>
      apply hc.writing.closing
      rintro rfl rfl
      -- above the root an array is held open with the map below it
      generalize hks : Kind.array :: ks ++ [.map] = ks' at hkeeps
      cases hkeeps

theorem Parsing.step (hc : Parsing type c ks s ws) {e : JsonEvent} {ks' : List Kind} {n' : Nat}
    (hp : place (ks, ws.length) e = some (ks', n')) {r : Int}
    (h : jsonCallback env float e c = .ok (r, c')) :
    r ≠ 0 ∧ n' = (ws ++ e.name?.toList).length ∧
      Parsing type c' ks' (hold s e) (ws ++ e.name?.toList) := by
  have hval : ∀ v : Value, jsonCallback env float v.event c = .ok (r, c') → ks = ks' →
      ws.length = n' → r ≠ 0 ∧ n' = (ws ++ v.event.name?.toList).length ∧
        Parsing type c' ks' (hold s v.event) (ws ++ v.event.name?.toList) := by
    rintro v hcall rfl rfl
    have hname : v.event.name? = none := by cases v <;> rfl
    obtain ⟨hr, hc'⟩ := hc.value v hcall
    rw [hname, Option.toList_none, List.append_nil]
    exact ⟨hr, rfl, hc'⟩
  cases e with
  | null =>
    cases hp
    exact hval .null h rfl rfl
  | boolean b =>
    cases hp
    exact hval (.boolean b) h rfl rfl
  | number text =>
    cases hp
    exact hval (.number text) h rfl rfl
  | string str =>
    cases hp
    exact hval (.string str) h rfl rfl
  | mapKey w =>
    rw [place_name, Option.some.injEq, Prod.mk.injEq] at hp
    obtain ⟨rfl, rfl⟩ := hp
    obtain ⟨hr, hc'⟩ := hc.name h
    rw [hold_name]
    exact ⟨hr, by simp [JsonEvent.name?], hc'⟩
  | startMap =>
    by_cases hn : 0 < ws.length
    · rw [show JsonEvent.startMap = startEvent .map from rfl, place_start hn] at hp
      cases hp
      obtain ⟨hr, hc'⟩ := hc.start hn .map h
      exact ⟨hr, by simp [JsonEvent.name?], by simpa [JsonEvent.name?, startEvent] using hc'⟩
    · simp [place, hn] at hp
  | startArray =>
    by_cases hn : 0 < ws.length
    · rw [show JsonEvent.startArray = startEvent .array from rfl, place_start hn] at hp
      cases hp
      obtain ⟨hr, hc'⟩ := hc.start hn .array h
      exact ⟨hr, by simp [JsonEvent.name?], by simpa [JsonEvent.name?, startEvent] using hc'⟩
    · simp [place, hn] at hp
  | endMap =>
    rcases ks with - | ⟨_ | _, ks⟩ <;> simp [place] at hp
    obtain ⟨rfl, rfl⟩ := hp
    obtain ⟨hr, hc'⟩ := hc.finish (k := .map) h
    exact ⟨hr, by simp [JsonEvent.name?], by simpa [JsonEvent.name?, endEvent] using hc'⟩
  | endArray =>
    rcases ks with - | ⟨_ | _, ks⟩ <;> simp [place] at hp
    obtain ⟨rfl, rfl⟩ := hp
    obtain ⟨hr, hc'⟩ := hc.finish (k := .array) h
    exact ⟨hr, by simp [JsonEvent.name?], by simpa [JsonEvent.name?, endEvent] using hc'⟩

theorem Parsing.run (hc : Parsing type c ks s ws) {es : List JsonEvent} {q : Place}
    (hp : places (ks, ws.length) es = some q) {ok : Bool}
    (h : yajlParse env float es c = .ok (ok, c')) :
    ok = true ∧ Parsing type c' q.1 (es.foldl hold s) (ws ++ es.filterMap JsonEvent.name?) := by
  induction es generalizing c ks s ws with
  | nil =>
    cases hp
    cases h
    refine ⟨rfl, ?_⟩
    simpa using hc
  | cons e es ih =>
    rw [places] at hp
    obtain ⟨⟨ks₁, n₁⟩, hplace, hp⟩ := Option.bind_eq_some_iff.mp hp
    rw [yajlParse] at h
    obtain ⟨⟨r, c₁⟩, hcall, h⟩ := bind_ok h
    obtain ⟨hr, rfl, hc₁⟩ := hc.step hplace hcall
    dsimp only at h
    rw [if_neg hr] at h
    obtain ⟨hok, hc'⟩ := ih hc₁ hp h
    refine ⟨hok, ?_⟩
    rw [List.foldl_cons]
    cases hname : e.name? with
    | none =>
      rw [hname, Option.toList_none, List.append_nil] at hc'
      rwa [List.filterMap_cons_none hname]
    | some w =>
      rw [hname, Option.toList_some, List.append_assoc] at hc'
      rwa [List.filterMap_cons_some hname]

end Reader

section Texts
variable {env : Env} {float : List UInt8 → UInt32} {c c' : FromJsonCtx} {es : List JsonEvent}
  {j : Json .map} {type : DicoType} {d₀ : Dico}

/-- The names given by the events of a text. -/
def eventNames (es : List JsonEvent) : List (List UInt8) := es.filterMap JsonEvent.name?

theorem text_names (j : Json .map) : eventNames j.text = j.names := by
  have hs : JsonEvent.startMap.name? = none := rfl
  rw [eventNames, Json.text, List.filterMap_cons_none hs, List.filterMap_append, events_names]
  exact List.append_nil _

/-- The reader as `bkv_from_json` starts the parser. -/
def startCtx (env : Env) (d₀ : Dico) : FromJsonCtx :=
  ⟨freshHandle env 0 (-1), some d₀, 0, false, 1, env.uninitKey⟩

/-- The reader after the events of a text that stops somewhere. -/
structure Stopped (type : DicoType) (es : List JsonEvent) (c : FromJsonCtx) : Prop where
  writing : Writing ((eventNames es).length ≤ 4091) c.dataHandle (held es)
  dico : ∃ d, c.dicoHandle = some d ∧ DicoTaking (eventNames es) type d

theorem Parsing.begin (hcr : Creates env) (hd : DicoTaking [] type d₀) {r : Int}
    (h : jsonCallback env float .startMap (startCtx env d₀) = .ok (r, c)) :
    r ≠ 0 ∧ Parsing type c [] [.map] [] := by
  obtain ⟨h₀, hx, hs⟩ := (hcr.fresh_sim 0).accept env (c := .opening .map bkvNoKey) rfl
  simp [jsonCallback, bkvJsonStartMap, startCtx, write_eq, hx, bkvOk] at h
  obtain ⟨rfl, rfl⟩ := h
  refine ⟨by decide, ⟨_, _, hs, rfl, ?_⟩, .plain 0 .nil, rfl, rfl, by simp, d₀, rfl, hd⟩
  simp [Position.calls, Frame.calls, Call.Within, bkvNoKey]

theorem yajlParse_append {es es' : List JsonEvent} {ok : Bool}
    (h : yajlParse env float (es ++ es') c = .ok (ok, c')) :
    ∃ ok₁ c₁, yajlParse env float es c = .ok (ok₁, c₁) ∧
      (ok₁ = true → yajlParse env float es' c₁ = .ok (ok, c')) := by
  induction es generalizing c with
  | nil => exact ⟨true, c, rfl, fun _ => h⟩
  | cons e es ih =>
    rw [List.cons_append, yajlParse] at h
    obtain ⟨⟨r, c₁⟩, hcall, h⟩ := bind_ok h
    by_cases hr : r = 0
    · exact ⟨false, c₁, by simp [yajlParse, hcall, hr], by simp⟩
    · dsimp only at h
      rw [if_neg hr] at h
      obtain ⟨ok₁, c₂, hrest, hlast⟩ := ih h
      exact ⟨ok₁, c₂, by simp [yajlParse, hcall, hr, hrest], hlast⟩

theorem prefix_cases (h : es <+: j.text) :
    es = [] ∨ ∃ es', es = .startMap :: es' ∧
      ((∃ q, places ([], 0) es' = some q) ∨ es' = j.events ++ [.endMap]) := by
  cases es with
  | nil => exact .inl rfl
  | cons e es =>
    rw [Json.text, List.cons_prefix_cons, List.prefix_concat_iff] at h
    obtain ⟨rfl, h | h⟩ := h
    · exact .inr ⟨es, rfl, .inr h⟩
    · exact .inr ⟨es, rfl, .inl (prefix_places h (places_contents j (by simp)))⟩

/-- However early the text stops, the parser takes all of it. -/
theorem stopped_of_parse (hcr : Creates env) (hd : DicoTaking [] type d₀) (hpre : es <+: j.text)
    (hne : es ≠ []) {ok : Bool} (h : yajlParse env float es (startCtx env d₀) = .ok (ok, c)) :
    ok = true ∧ Stopped type es c := by
  rcases prefix_cases hpre with rfl | ⟨es', rfl, hes⟩
  · exact absurd rfl hne
  · rw [yajlParse] at h
    obtain ⟨⟨r, c₁⟩, hcall, h⟩ := bind_ok h
    obtain ⟨hr, hc₁⟩ := Parsing.begin hcr hd hcall
    dsimp only at h
    rw [if_neg hr] at h
    have hstart : eventNames (.startMap :: es') = es'.filterMap JsonEvent.name? :=
      List.filterMap_cons_none rfl
    rcases hes with ⟨q, hq⟩ | rfl
    · obtain ⟨hok, hc⟩ := hc₁.run (q := q) hq h
      rw [List.nil_append] at hc
      exact ⟨hok, by rw [hstart]; exact hc.writing, by rw [hstart]; exact hc.dico⟩
    · obtain ⟨ok₁, c₂, hbody, hlast⟩ := yajlParse_append h
      obtain ⟨hok, hc₂⟩ := hc₁.run (places_contents j (by simp)) hbody
      obtain ⟨d, hdico, htaking⟩ := hc₂.dico
      have hs : List.foldl hold [.map] j.events = [.map] := keeps_root hc₂.keeps
      have hdeep : c₂.deep - 1 = 0 := by
        rw [hc₂.deep]
        rfl
      have hend : jsonCallback env float .endMap c₂ = .ok (-1, { c₂ with deep := 0 }) := by
        simp [jsonCallback, bkvJsonEndMap, hdeep, hdico]
      replace hlast := hlast hok
      rw [yajlParse_cons hend (by decide)] at hlast
      cases hlast
      have hheld : held (.startMap :: (j.events ++ [.endMap])) = List.foldl hold [.map] j.events :=
        (held_text j).trans hs.symm
      have hnames : eventNames (.startMap :: (j.events ++ [.endMap])) =
          [] ++ j.events.filterMap JsonEvent.name? := by
        rw [hstart, List.filterMap_append]
        exact List.append_nil _
      exact ⟨rfl, by rw [hnames, hheld]; exact hc₂.writing, by rw [hnames]; exact hc₂.dico⟩

end Texts

end Wtools
