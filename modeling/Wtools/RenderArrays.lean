import Wtools.RenderWhole

/-!
# Arrays of objects

The callback of a map is not told what the map is in. It writes a name whenever it finds one that is
not empty, so a map in an array brings a string along, and a map with an empty name brings nothing.
-/

namespace Wtools
open Forest

variable {accept : Accept} {names : Names}

def Scalar.value? : Scalar → Option Value
  | .str s => some (.string s)
  | .boolean v => some (.boolean v)
  | _ => none

/-- The JSON that the contents of a container are, one element for each element and one name and
value for each member. The strings, the booleans and the containers have their keys in the
dictionary, the maps of an array may also have no key. -/
def jsonOf? (names : Names) : (k : Kind) → Items → Option (Json k)
  | _, .nil => some .nil
  | .map, .leaf (.keyed key v) rest => do
    return .member (← names key) (← v.value?) (← jsonOf? names .map rest)
  | .array, .leaf (.elem v) rest => do
    return .element (← v.scalar.value?) (← jsonOf? names .array rest)
  | .map, .node (c, key) body rest => do
    return .memberIn (← names key) c (← jsonOf? names c body) (← jsonOf? names .map rest)
  | .array, .node (.map, key) body rest =>
    if key = bkvNoKey ∨ (names key).isSome then do
      return .elementIn .map (← jsonOf? names .map body) (← jsonOf? names .array rest)
    else none
  | _, _ => none

/-- The JSON text of a document; the outermost map may have no key. -/
def documentJson? (names : Names) (key : UInt16) (f : Items) : Option (Json .map) :=
  if key = bkvNoKey ∨ (names key).isSome then jsonOf? names .map f else none

/-- The generator was given the text, and took it. -/
def Writes (g : Gen) (j : Json .map) : Prop :=
  g.made.map some = j.text.map JsonEvent.call? ∧ g.taken = g.made

/-- A map under this key is written without a name. -/
def Unnamed (names : Names) (key : UInt16) : Prop := key = bkvNoKey ∨ names key = some []

instance (names : Names) (key : UInt16) : Decidable (Unnamed names key) :=
  inferInstanceAs (Decidable (_ ∨ _))

/-- The maps written without a name are those directly in arrays. -/
def MapsNamed (names : Names) : Kind → Items → Prop
  | _, .nil => True
  | k, .leaf _ rest => MapsNamed names k rest
  | k, .node (c, key) body rest =>
    (c = .map → (Unnamed names key ↔ k = .array)) ∧ MapsNamed names c body ∧ MapsNamed names k rest

/-- The calls made begin like the tokens `ts` and go on with another one. -/
def Strays (g : Gen) (r : Bool × Gen) (ts : List GenCall) : Prop :=
  ∃ pre t t', pre ++ [t] <+: ts ∧ t' ≠ t ∧ g.made ++ pre ++ [t'] <+: r.2.made

/-- The calls made are the tokens if `p` holds, and stray from them if it does not. -/
def Settles (g : Gen) (r : Bool × Gen) (ts : List GenCall) (p : Prop) : Prop :=
  p ∧ r = (false, g.extend ts) ∨ ¬p ∧ Strays g r ts

theorem Strays.ne {g : Gen} {r : Bool × Gen} {ts : List GenCall} (h : Strays g r ts) :
    r.2.made ≠ g.made ++ ts := by
  obtain ⟨pre, t, t', ⟨us, hts⟩, hne, ⟨vs, hmade⟩⟩ := h
  intro heq
  rw [← hmade, ← hts] at heq
  simp only [List.append_assoc, List.append_cancel_left_eq, List.cons_append, List.nil_append,
    List.cons.injEq] at heq
  exact hne heq.1

theorem renderCall_begins (c : Call) (g : Gen) :
    g.made <+: (renderCall accept names c g).2.made := by
  have hcalls : ∀ ts (g : Gen), g.made <+: (g.calls accept ts).2.made := by
    intro ts g
    obtain ⟨out, hout, -⟩ := calls_made accept ts g
    exact ⟨out, hout.symm⟩
  have hcall : ∀ t (g : Gen), g.made <+: (g.call accept t).2.made := fun t g =>
    ⟨[t], (call_made accept t g).symm⟩
  rcases c with ⟨_ | _, key⟩ | k | e
  · rw [renderCall]
    split
    · exact List.prefix_refl _
    · dsimp only [Gen.stop]
      split
      · exact (hcall _ g).trans (hcall _ _)
      · exact hcall _ g
  · rw [renderCall]
    split
    · exact List.prefix_refl _
    · exact hcalls _ g
  · exact hcall _ g
  · rw [renderCall]
    split
    · exact List.prefix_refl _
    · exact hcalls _ g

theorem render_begins (cs : List Call) (g : Gen) :
    g.made <+: (render accept names cs g).2.made := by
  induction cs generalizing g with
  | nil => exact List.prefix_refl _
  | cons c cs ih =>
    rw [render_cons]
    split
    · exact renderCall_begins c g
    · exact (renderCall_begins c g).trans (ih _)

theorem Settles.imp {g : Gen} {r : Bool × Gen} {ts : List GenCall} {p q : Prop}
    (h : Settles g r ts p) (hpq : p ↔ q) : Settles g r ts q := by
  rwa [← propext hpq]

/-- What strays once never comes back. -/
theorem Settles.append {cs ds : List Call} {g : Gen} {ts us : List GenCall} {p q : Prop}
    (ha : Takes accept g.taken (ts ++ us))
    (h₁ : Takes accept g.taken ts → Settles g (render accept names cs g) ts p)
    (h₂ : ∀ g' : Gen, Takes accept g'.taken us → Settles g' (render accept names ds g') us q) :
    Settles g (render accept names (cs ++ ds) g) (ts ++ us) (p ∧ q) := by
  obtain ⟨hts, hus⟩ := takes_append.mp ha
  rw [render_append]
  rcases h₁ hts with ⟨hp, hr⟩ | ⟨hp, pre, t, t', hpre, hne, hmade⟩
  · rw [hr, if_neg Bool.false_ne_true]
    rcases h₂ (g.extend ts) hus with ⟨hq, hr'⟩ | ⟨hq, pre, t, t', hpre, hne, hmade⟩
    · exact .inl ⟨⟨hp, hq⟩, by rw [hr', extend_extend]⟩
    · refine .inr ⟨fun h => hq h.2, ts ++ pre, t, t', ?_, hne, ?_⟩
      · rw [List.append_assoc]
        exact (List.prefix_append_right_inj ts).mpr hpre
      · simpa [Gen.extend] using hmade
  · refine .inr ⟨fun h => hp h.1, pre, t, t', hpre.trans (List.prefix_append ts us), hne, ?_⟩
    split
    · exact hmade
    · exact hmade.trans (render_begins ds _)

section Records
variable {g : Gen}

theorem Unnamed.looked {key : UInt16} (hu : Unnamed names key) :
    (if key = bkvNoKey then some [] else names key) = some [] := by
  rcases hu with hu | hu
  · rw [if_pos hu]
  · rw [hu, ite_self]

/-- A map writes its name, if it has one, and then its token. -/
theorem settles_map {key : UInt16} (hkey : key = bkvNoKey ∨ (names key).isSome)
    (ha : Takes accept g.taken [.mapOpen]) :
    Settles g (render accept names [.opening .map key] g) [.mapOpen] (Unnamed names key) := by
  rw [render_single, renderCall]
  by_cases hu : Unnamed names key
  · refine .inl ⟨hu, ?_⟩
    rw [hu.looked]
    simp only [List.length_nil, Nat.lt_irrefl, if_false, call_extend ha.1]
    rfl
  · obtain ⟨hne, hw⟩ := not_or.mp hu
    obtain ⟨w, hname⟩ := Option.isSome_iff_exists.mp (hkey.resolve_left hne)
    refine .inr ⟨hu, [], .mapOpen, .string w, List.prefix_refl _, by simp, ?_⟩
    have hlen : 0 < w.length := by
      apply List.length_pos_iff.mpr
      rintro rfl
      exact hw hname
    rw [if_neg hne, hname]
    simp only [hlen, if_true, List.append_nil]
    exact ⟨[.mapOpen], by rw [Gen.stop, call_made, call_made]⟩

/-- A map that is a member is to have a name. -/
theorem settles_mapIn {key : UInt16} {w : List UInt8} (hw : names key = some w)
    (ha : Takes accept g.taken [.string w, .mapOpen]) :
    Settles g (render accept names [.opening .map key] g) [.string w, .mapOpen]
      ¬Unnamed names key := by
  rw [render_single]
  by_cases hu : Unnamed names key
  · refine .inr ⟨not_not.mpr hu, [], .string w, .mapOpen, ⟨[.mapOpen], rfl⟩, by simp, ?_⟩
    rw [renderCall, hu.looked]
    simp only [List.length_nil, Nat.lt_irrefl, if_false, List.append_nil]
    exact ⟨[], by rw [Gen.stop, call_made, List.append_nil]⟩
  · obtain ⟨hne, hempty⟩ := not_or.mp hu
    refine .inl ⟨hu, render_opening .map hw (fun _ => ⟨hne, ?_⟩) ha⟩
    rintro rfl
    exact hempty hw

theorem settles_call {c : Call} {ts : List GenCall}
    (h : renderCall accept names c g = (false, g.extend ts)) :
    Settles g (render accept names [c] g) ts True :=
  .inl ⟨trivial, by rw [render_single, h]⟩

end Records

theorem Scalar.value?_token {v : Scalar} {x : Value} (h : v.value? = some x) :
    ∃ t, v.token? = some t ∧ x.event.call? = some t := by
  cases v <;> cases h <;> exact ⟨_, rfl, rfl⟩

/-- The cases of `jsonOf?`. -/
inductive ReadsAs (names : Names) : (k : Kind) → Items → Json k → Prop
  | nil (k : Kind) : ReadsAs names k .nil .nil
  | keyed {key : UInt16} {v : Scalar} {w : List UInt8} {x : Value} {rest : Items} {j : Json .map}
    (hw : names key = some w) (hx : v.value? = some x) (hrest : ReadsAs names .map rest j) :
    ReadsAs names .map (.leaf (.keyed key v) rest) (.member w x j)
  | elem {v : Elem} {x : Value} {rest : Items} {j : Json .array}
    (hx : v.scalar.value? = some x) (hrest : ReadsAs names .array rest j) :
    ReadsAs names .array (.leaf (.elem v) rest) (.element x j)
  | member {c : Kind} {key : UInt16} {w : List UInt8} {body rest : Items} {jb : Json c}
    {jr : Json .map} (hw : names key = some w) (hbody : ReadsAs names c body jb)
    (hrest : ReadsAs names .map rest jr) :
    ReadsAs names .map (.node (c, key) body rest) (.memberIn w c jb jr)
  | object {key : UInt16} {body rest : Items} {jb : Json .map} {jr : Json .array}
    (hkey : key = bkvNoKey ∨ (names key).isSome) (hbody : ReadsAs names .map body jb)
    (hrest : ReadsAs names .array rest jr) :
    ReadsAs names .array (.node (.map, key) body rest) (.elementIn .map jb jr)

theorem jsonOf?_readsAs {k : Kind} {f : Items} {j : Json k} (hj : jsonOf? names k f = some j) :
    ReadsAs names k f j := by
  induction f generalizing k with
  | nil =>
    rw [jsonOf?] at hj
    cases hj
    exact .nil k
  | leaf e rest ih =>
    rcases k with _ | _ <;> rcases e with ⟨key, v⟩ | v
    · obtain ⟨w, hw, hj⟩ := Option.bind_eq_some_iff.mp hj
      obtain ⟨x, hx, hj⟩ := Option.bind_eq_some_iff.mp hj
      obtain ⟨j', hj', hj⟩ := Option.bind_eq_some_iff.mp hj
      cases hj
      exact .keyed hw hx (ih hj')
    · cases hj
    · cases hj
    · obtain ⟨x, hx, hj⟩ := Option.bind_eq_some_iff.mp hj
      obtain ⟨j', hj', hj⟩ := Option.bind_eq_some_iff.mp hj
      cases hj
      exact .elem hx (ih hj')
  | node l body rest ihb ih =>
    obtain ⟨c, key⟩ := l
    cases k with
    | map =>
      obtain ⟨w, hw, hj⟩ := Option.bind_eq_some_iff.mp hj
      obtain ⟨jb, hjb, hj⟩ := Option.bind_eq_some_iff.mp hj
      obtain ⟨jr, hjr, hj⟩ := Option.bind_eq_some_iff.mp hj
      cases hj
      exact .member hw (ihb hjb) (ih hjr)
    | array =>
      cases c with
      | array => cases hj
      | map =>
        rw [jsonOf?] at hj
        split at hj
        · rename_i hkey
          obtain ⟨jb, hjb, hj⟩ := Option.bind_eq_some_iff.mp hj
          obtain ⟨jr, hjr, hj⟩ := Option.bind_eq_some_iff.mp hj
          cases hj
          exact .object hkey (ihb hjb) (ih hjr)
        · cases hj

/-- The rendering of the contents of a container, against the JSON that they are. -/
theorem settles_contents {k : Kind} {f : Items} {j : Json k} (hj : ReadsAs names k f j)
    {g : Gen} (ha : Takes accept g.taken j.tokens) :
    Settles g (render accept names (calls f) g) j.tokens (MapsNamed names k f) := by
  have hclose : ∀ (c : Kind) (g : Gen), Takes accept g.taken [endToken c] →
      Settles g (render accept names [.closing c] g) [endToken c] True := fun c g ha =>
    settles_call (render_closing c ha.1)
  have hcalls : ∀ (c : Kind) (key : UInt16) (body rest : Items), calls (.node (c, key) body rest) =
      [.opening c key] ++ (calls body ++ ([.closing c] ++ calls rest)) := by
    intro c key body rest
    simp
  induction hj generalizing g with
  | nil k => exact .inl ⟨trivial, by simp [render, renderWith, Json.tokens, Json.events, Gen.extend]⟩
  | @keyed key v w x rest j hw hx _ ih =>
    obtain ⟨t, ht, hcall⟩ := Scalar.value?_token hx
    rw [tokens_member hcall] at ha ⊢
    have he : (Entry.keyed key v).tokens? names = some [.string w, t] := by
      rw [Entry.tokens?, hw, ht]
      rfl
    change Settles g (render accept names ([.add (.keyed key v)] ++ calls rest) g) _ _
    refine (Settles.append ha (fun ha => settles_call (render_add he ha))
      fun g' ha => ih ha).imp ?_
    rw [true_and, MapsNamed]
  | @elem v x rest j hx _ ih =>
    obtain ⟨t, ht, hcall⟩ := Scalar.value?_token hx
    rw [tokens_element hcall] at ha ⊢
    have he : (Entry.elem v).tokens? names = some [t] := by
      rw [Entry.tokens?, ht]
      rfl
    change Settles g (render accept names ([.add (.elem v)] ++ calls rest) g) _ _
    refine (Settles.append ha (fun ha => settles_call (render_add he ha))
      fun g' ha => ih ha).imp ?_
    rw [true_and, MapsNamed]
  | @member c key w body rest jb jr hw _ _ ihb ih =>
    rw [tokens_memberIn] at ha ⊢
    have hopen : Takes accept g.taken [.string w, startToken c] →
        Settles g (render accept names [.opening c key] g) [.string w, startToken c]
          (c = .map → ¬Unnamed names key) := by
      intro ha
      cases c with
      | map => exact (settles_mapIn hw ha).imp (by simp)
      | array => exact (settles_call (render_opening .array hw (by simp) ha)).imp (by simp)
    rw [hcalls]
    refine (Settles.append ha hopen fun g' ha => Settles.append ha (fun ha => ihb ha)
      fun g' ha => Settles.append ha (hclose c g') fun g' ha => ih ha).imp ?_
    simp [MapsNamed]
  | @object key body rest jb jr hkey _ _ ihb ih =>
    rw [tokens_elementIn] at ha ⊢
    rw [hcalls]
    refine (Settles.append ha (settles_map hkey) fun g' ha => Settles.append ha
      (fun ha => ihb ha) fun g' ha => Settles.append ha (hclose .map g')
        fun g' ha => ih ha).imp ?_
    simp [MapsNamed]

theorem ReadsAs.called {k : Kind} {f : Items} {j : Json k} (hj : ReadsAs names k f j) :
    j.Forall (fun v => ∃ t, v.event.call? = some t) fun _ _ => True := by
  have hvalue : ∀ {v : Scalar} {x : Value}, v.value? = some x → ∃ t, x.event.call? = some t := by
    intro v x hx
    obtain ⟨t, -, hcall⟩ := Scalar.value?_token hx
    exact ⟨t, hcall⟩
  induction hj with
  | nil k => trivial
  | keyed hw hx _ ih => exact ⟨hvalue hx, ih⟩
  | elem hx _ ih => exact ⟨hvalue hx, ih⟩
  | member hw _ _ ihb ih => exact ⟨trivial, ihb, ih⟩
  | object hkey _ _ ihb ih => exact ⟨trivial, ihb, ih⟩

/-- The generator calls are a JSON text in which the arrays and the maps have the elements and the
members of the document if and only if just the maps in arrays are without a name. -/
theorem writes_json_iff (env : Env) (accept : Accept) (ha : accept.Lawful) (h : Bkv) (key : UInt16)
    (f rest : Items) (ws : List (UInt16 × List UInt8)) (j : Json .map)
    (hd : HoldsDocument h (calls (.node (.map, key)
      (f ++ .node (.map, bkvDicoKey) (dictionary ws) rest) .nil)))
    (hsize : h.writeOffset ≤ 65535) (hkey : key ≤ 0xFFC) (hs : ∀ c ∈ calls (f ++ rest), c.Shown)
    (hj : documentJson? (fun k => ws.lookup k) key (f ++ rest) = some j) :
    (∃ g, bkvToJson env accept h = .ok (bkvOk, g) ∧ Writes g j) ↔
    Unnamed (fun k => ws.lookup k) key ∧ MapsNamed (fun k => ws.lookup k) .map (f ++ rest) := by
  rw [hd.toJson env accept hsize hkey hs, rendering]
  rw [documentJson?] at hj
  split at hj
  · rename_i hroot
    have hreads := jsonOf?_readsAs hj
    have htext := text_tokens j hreads.called
    have htakes : Takes accept [] ([.mapOpen] ++ (j.tokens ++ [.mapClose])) :=
      ha.takes j (by rw [htext]; rfl)
    have hsettles := Settles.append (g := ⟨[], []⟩) htakes (settles_map hroot) fun g' ha =>
      Settles.append ha (fun ha => settles_contents hreads ha) fun g' ha =>
        settles_call (render_closing .map ha.1)
    have hcalls : calls (.node (.map, key) (f ++ rest) .nil) =
        [.opening .map key] ++ (calls (f ++ rest) ++ [.closing .map]) := by
      simp
    rw [hcalls]
    constructor
    · rintro ⟨g, hg, hmade, -⟩
      cases hg
      rw [htext] at hmade
      rcases hsettles with ⟨hp, -⟩ | ⟨-, hstrays⟩
      · exact ⟨hp.1, hp.2.1⟩
      · exact absurd (List.map_injective_iff.mpr (fun _ _ h => Option.some.inj h) hmade) hstrays.ne
    · intro hp
      rcases hsettles with ⟨-, hr⟩ | ⟨hnp, -⟩
      · exact ⟨_, rfl, by rw [hr, htext]; rfl, by rw [hr]; rfl⟩
      · exact absurd ⟨hp.1, hp.2, trivial⟩ hnp
  · cases hj

/-- `{1: [{key 1, no members}]}` and a dictionary that names the key 1. -/
def objectsDocument : Bkv :=
  (runOk calmEnv ramHandle [.opening .map 0, .opening .array 1, .opening .map 1, .closing .map,
    .closing .array, .opening .map 0xFFE, .add (.keyed 1 (.str [0x61])), .closing .map,
    .closing .map]).getD ramHandle

/-- The contents of `objectsDocument` without the dictionary. -/
def objectsItems : Items := .node (.array, 1) (.node (.map, 1) .nil .nil) .nil

theorem objectsDocument_holds : HoldsDocument objectsDocument (calls (.node (.map, 0)
    (objectsItems ++ .node (.map, bkvDicoKey) (dictionary [(1, [0x61])]) .nil) .nil)) :=
  runOk_holds ramHandle_fresh rfl rfl

/-- The text of `objectsDocument` is `{"a":[{}]}`, the calls are those of `{"a":["a",{}]}`. -/
theorem object_brings_string :
    HoldsDocument objectsDocument (calls (.node (.map, 0)
      (objectsItems ++ .node (.map, bkvDicoKey) (dictionary [(1, [0x61])]) .nil) .nil)) ∧
    documentJson? (fun k => [(1, [0x61])].lookup k) 0 objectsItems =
      some (.memberIn [0x61] .array (.elementIn .map .nil .nil) .nil) ∧
    ∃ g, bkvToJson calmEnv (fun _ _ => true) objectsDocument = .ok (bkvOk, g) ∧
      g.taken = [.mapOpen, .string [0x61], .arrayOpen, .string [0x61], .mapOpen, .mapClose,
        .arrayClose, .mapClose] ∧
      ¬Writes g (.memberIn [0x61] .array (.elementIn .map .nil .nil) .nil) := by
  refine ⟨runOk_holds ramHandle_fresh rfl rfl, rfl, _, rfl, rfl, ?_⟩
  rintro ⟨hmade, -⟩
  exact absurd hmade (by decide)

/-- `{1: [{key 0, no members}]}` and the same dictionary. -/
def plainDocument : Bkv :=
  (runOk calmEnv ramHandle [.opening .map 0, .opening .array 1, .opening .map 0, .closing .map,
    .closing .array, .opening .map 0xFFE, .add (.keyed 1 (.str [0x61])), .closing .map,
    .closing .map]).getD ramHandle

def plainItems : Items := .node (.array, 1) (.node (.map, 0) .nil .nil) .nil

theorem plainDocument_holds : HoldsDocument plainDocument (calls (.node (.map, 0)
    (plainItems ++ .node (.map, bkvDicoKey) (dictionary [(1, [0x61])]) .nil) .nil)) :=
  runOk_holds ramHandle_fresh rfl rfl

theorem writes_json_plain : ∃ g, bkvToJson calmEnv (fun _ _ => true) plainDocument = .ok (bkvOk, g) ∧
    Writes g (.memberIn [0x61] .array (.elementIn .map .nil .nil) .nil) :=
  (writes_json_iff calmEnv (fun _ _ => true) (fun _ _ _ _ _ => rfl) plainDocument 0 plainItems
    .nil [(1, [0x61])] (.memberIn [0x61] .array (.elementIn .map .nil .nil) .nil)
    plainDocument_holds (by decide) (by decide) (by simp [plainItems, Call.Shown]) rfl).mpr
    ⟨.inl rfl, by simp [plainItems, MapsNamed, Unnamed, bkvNoKey]⟩

end Wtools
