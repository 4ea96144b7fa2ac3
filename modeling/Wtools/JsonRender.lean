import Wtools.JsonStore
import Wtools.Search

/-!
# JSON written back

What `bkv_to_json` does with a document, the dictionary being seen as a function from keys
to names: `renderCall` for each record, in order, until the loop is stopped.
-/

namespace Wtools
open ByteMemory Forest

/-- The name of a key, if the dictionary has one. -/
abbrev Names := UInt16 → Option (List UInt8)

/-- The generator call of a string, a boolean or a float. -/
def Scalar.token? : Scalar → Option GenCall
  | .str s => some (.string s)
  | .boolean v => some (.boolean v)
  | .float v => some (.double v)
  | _ => none

def startToken : Kind → GenCall
  | .map => .mapOpen
  | .array => .arrayOpen

def endToken : Kind → GenCall
  | .map => .mapClose
  | .array => .arrayClose

/-- The calls for a value under its name, or for an element. -/
def Entry.tokens? (names : Names) : Entry → Option (List GenCall)
  | .keyed key v => do return [.string (← names key), ← v.token?]
  | .elem v => do return [← v.scalar.token?]

/-- Whether the loop is stopped: it is when a call is not taken. -/
def Gen.stop (r : Bool × Gen) : Bool × Gen := (!r.1, r.2)

/-- What is made of one record. A value without a name stops the loop, a container without a
name is passed over. -/
def renderCall (accept : Accept) (names : Names) : Call → Gen → Bool × Gen
  | .opening .map key, g =>
    match if key = bkvNoKey then some [] else names key with
    | none => (false, g)
    | some s => Gen.stop <|
      (if 0 < s.length then (g.call accept (.string s)).2 else g).call accept .mapOpen
  | .opening .array key, g =>
    match names key with
    | none => (false, g)
    | some s => Gen.stop (g.calls accept [.string s, .arrayOpen])
  | .closing k, g => Gen.stop (g.call accept (endToken k))
  | .add e, g =>
    match e.tokens? names with
    | none => (true, g)
    | some ts => Gen.stop (g.calls accept ts)

abbrev Renderer := Call → Gen → Bool × Gen

/-- The records in order, until the loop is stopped. -/
def renderWith (r : Renderer) : List Call → Gen → Bool × Gen
  | [], g => (false, g)
  | c :: cs, g => if (r c g).1 then (true, (r c g).2) else renderWith r cs (r c g).2

theorem renderWith_cons (r : Renderer) (c : Call) (cs : List Call) (g : Gen) :
    renderWith r (c :: cs) g =
      if (r c g).1 then (true, (r c g).2) else renderWith r cs (r c g).2 := rfl

theorem renderWith_append (r : Renderer) (cs ds : List Call) (g : Gen) :
    renderWith r (cs ++ ds) g =
      if (renderWith r cs g).1 then (true, (renderWith r cs g).2)
      else renderWith r ds (renderWith r cs g).2 := by
  induction cs generalizing g with
  | nil => rfl
  | cons c cs ih =>
    rw [List.cons_append, renderWith_cons, renderWith_cons, ih]
    split <;> simp

def render (accept : Accept) (names : Names) : List Call → Gen → Bool × Gen :=
  renderWith (renderCall accept names)

variable {accept : Accept} {names : Names}

theorem render_cons (c : Call) (cs : List Call) (g : Gen) :
    render accept names (c :: cs) g =
      if (renderCall accept names c g).1 then (true, (renderCall accept names c g).2)
      else render accept names cs (renderCall accept names c g).2 := rfl

theorem render_append (cs ds : List Call) (g : Gen) :
    render accept names (cs ++ ds) g =
      if (render accept names cs g).1 then (true, (render accept names cs g).2)
      else render accept names ds (render accept names cs g).2 :=
  renderWith_append (renderCall accept names) cs ds g

/-- The records that the rendering is about: keys of members, strings, booleans and floats. -/
def Call.Shown : Call → Prop
  | .opening _ key => key ≤ 0xFFC
  | .closing _ => True
  | .add (.keyed key v) => key ≤ 0xFFC ∧ v.token?.isSome
  | .add (.elem v) => v.scalar.token?.isSome

theorem calls_singleton (c : GenCall) (g : Gen) : g.calls accept [c] = g.call accept c := by
  rw [Gen.calls]
  cases h : g.call accept c with
  | mk ok g' => cases ok <;> rfl

variable {env : Env} {z : Zone} {off : Nat} {deep : Int}

theorem visit_stopUnless {e : Event} {c : ToJsonCtx} {error : Int} {r : Bool × Gen}
    (he : error ≠ bkvOk)
    (hcb : toJsonCallbacks env z accept e c = .ok (stopUnless actionNone c (okOr error r))) :
    visit (toJsonCallbacks env z accept) e c =
      .ok (⟨false, (Gen.stop r).1⟩, { c with gen := (Gen.stop r).2 }) := by
  have hstop : actionStopLoop ≠ 0 := by decide
  have hgoto : actionStopLoop &&& actionGotoEndMap = 0 := by decide
  rw [visit, hcb]
  obtain ⟨ok, g⟩ := r
  cases ok <;>
    simp [Except.map, stopUnless, okOr, Gen.stop, he, skips, actionNone, hstop, hgoto]

theorem visit_none {e : Event} {c : ToJsonCtx}
    (hcb : toJsonCallbacks env z accept e c = .ok (actionNone, c)) :
    visit (toJsonCallbacks env z accept) e c = .ok (⟨false, false⟩, c) := by
  rw [visit, hcb]
  simp [Except.map, skips, actionNone]

theorem visit_stop {e : Event} {c : ToJsonCtx}
    (hcb : toJsonCallbacks env z accept e c = .ok (actionStopLoop, c)) :
    visit (toJsonCallbacks env z accept) e c = .ok (⟨false, true⟩, c) := by
  have hstop : actionStopLoop ≠ 0 := by decide
  have hgoto : actionStopLoop &&& actionGotoEndMap = 0 := by decide
  rw [visit, hcb]
  simp [Except.map, skips, hstop, hgoto]

theorem invArg_ne : bkvInvArg ≠ bkvOk := by decide

theorem invState_ne : bkvInvState ≠ bkvOk := by decide

variable {dv : BkvVal}

/-- The dictionary that the callbacks search has these names. -/
def Knows (z : Zone) (dv : BkvVal) (names : Names) : Prop :=
  ∀ jump g key, dicoName z ⟨jump, dv, g⟩ key = .ok (names key)

/-- The callbacks do with the records that have the property `p` what `r` says. -/
structure Renders (env : Env) (z : Zone) (accept : Accept) (dv : BkvVal) (r : Renderer)
    (p : Call → Prop) : Prop where
  opening (off : Nat) {k : Kind} {key : UInt16} (cnt : UInt16) (g : Gen) : p (.opening k key) →
    visit (toJsonCallbacks env z accept) (openEvent off key cnt k) ⟨false, dv, g⟩ =
      .ok (⟨false, (r (.opening k key) g).1⟩, ⟨false, dv, (r (.opening k key) g).2⟩)
  closing (k : Kind) (key : UInt16) (g : Gen) :
    visit (toJsonCallbacks env z accept) (closeEvent key k) ⟨false, dv, g⟩ =
      .ok (⟨false, (r (.closing k) g).1⟩, ⟨false, dv, (r (.closing k) g).2⟩)
  add {off : Nat} {deep : Int} {e : Entry} (g : Gen) : p (.add e) →
    ByteMemory.Fits z.mem off e.pattern → off + e.width ≤ z.size →
    visit (toJsonCallbacks env z accept) (scalarEvent off deep e.key e.scalar) ⟨false, dv, g⟩ =
      .ok (⟨false, (r (.add e) g).1⟩, ⟨false, dv, (r (.add e) g).2⟩)

theorem visit_opening (env : Env) (accept : Accept) (off : Nat) (hd : Knows z dv names) {k : Kind}
    {key : UInt16} (hk : (Call.opening k key).Shown) (cnt : UInt16) (g : Gen) :
    visit (toJsonCallbacks env z accept) (openEvent off key cnt k) ⟨false, dv, g⟩ =
      .ok (⟨false, (renderCall accept names (.opening k key) g).1⟩,
        ⟨false, dv, (renderCall accept names (.opening k key) g).2⟩) := by
  have hdico : key ≠ bkvDicoKey := by
    rintro rfl
    exact absurd hk (by simp [Call.Shown, bkvDicoKey])
  have hname := hd false g key
  cases k with
  | map =>
    rw [renderCall, openEvent]
    by_cases h0 : key = bkvNoKey
    · rw [if_pos h0]
      apply visit_stopUnless invArg_ne
      simp only [toJsonCallbacks, bkvToJsonMapOpen, if_neg hdico, if_pos h0, Bool.false_eq_true,
        if_false]
      rfl
    · rw [if_neg h0]
      cases hn : names key with
      | none =>
        apply visit_none
        simp only [toJsonCallbacks, bkvToJsonMapOpen, if_neg hdico, if_neg h0, Bool.false_eq_true,
          if_false, hname, hn]
        rfl
      | some s =>
        apply visit_stopUnless invArg_ne
        simp only [toJsonCallbacks, bkvToJsonMapOpen, if_neg hdico, if_neg h0, Bool.false_eq_true,
          if_false, hname, hn]
        rfl
  | array =>
    rw [renderCall, openEvent]
    cases hn : names key with
    | none =>
      apply visit_none
      simp only [toJsonCallbacks, bkvToJsonArrayOpen, hname, hn]
      rfl
    | some s =>
      apply visit_stopUnless invState_ne
      simp only [toJsonCallbacks, bkvToJsonArrayOpen, hname, hn]
      rfl

theorem visit_closing (names : Names) (k : Kind) (key : UInt16) (g : Gen) :
    visit (toJsonCallbacks env z accept) (closeEvent key k) ⟨false, dv, g⟩ =
      .ok (⟨false, (renderCall accept names (.closing k) g).1⟩,
        ⟨false, dv, (renderCall accept names (.closing k) g).2⟩) := by
  cases k with
  | map => exact visit_stopUnless invState_ne rfl
  | array => exact visit_stopUnless invArg_ne rfl

theorem visit_member (hd : Knows z dv names) {key : UInt16} {v : Scalar} {t : GenCall} {e : Event}
    {g : Gen} (ht : v.token? = some t)
    (hcb : toJsonCallbacks env z accept e ⟨false, dv, g⟩ =
      namedMember z actionNone key (fun str => yajlMember accept str t) ⟨false, dv, g⟩) :
    visit (toJsonCallbacks env z accept) e ⟨false, dv, g⟩ =
      .ok (⟨false, (renderCall accept names (.add (.keyed key v)) g).1⟩,
        ⟨false, dv, (renderCall accept names (.add (.keyed key v)) g).2⟩) := by
  have hname := hd false g key
  rw [renderCall, Entry.tokens?]
  rw [namedMember, hname] at hcb
  cases hn : names key with
  | none =>
    rw [hn] at hcb
    exact visit_stop hcb
  | some s =>
    rw [hn] at hcb
    rw [ht]
    exact visit_stopUnless invArg_ne hcb

theorem visit_add (hd : Knows z dv names) {e : Entry} (he : (Call.add e).Shown)
    (hfit : ByteMemory.Fits z.mem off e.pattern) (hz : off + e.width ≤ z.size) (g : Gen) :
    visit (toJsonCallbacks env z accept) (scalarEvent off deep e.key e.scalar) ⟨false, dv, g⟩ =
      .ok (⟨false, (renderCall accept names (.add e) g).1⟩,
        ⟨false, dv, (renderCall accept names (.add e) g).2⟩) := by
  have hread : ∀ s, e.scalar = .str s → readBytes z (off + 4) s.length = .ok s := by
    intro s hs
    have hx : (Call.add e).exact := by
      cases e with
      | elem v => rfl
      | keyed key v =>
        cases hs
        rfl
    have hseen := scalar_seen 0 hfit hz hx
    rw [hs] at hseen
    simp only [scalarEvent, Event.seen, scalarSeen, Seen.str.injEq] at hseen
    rw [readBytes, hseen.2]
  cases e with
  | keyed key v =>
    obtain ⟨hkey, hv⟩ := he
    have harr : key ≠ bkvArrayKey := by
      rintro rfl
      exact absurd hkey (by simp [bkvArrayKey])
    cases v with
    | str s =>
      apply visit_member hd rfl
      have hs := hread s rfl
      simp only [Entry.key, Entry.scalar, scalarEvent, toJsonCallbacks, bkvToJsonStr,
        if_neg harr, hs]
      rfl
    | boolean b =>
      apply visit_member hd rfl
      simp only [Entry.key, Entry.scalar, scalarEvent, toJsonCallbacks, bkvToJsonBoolean,
        if_neg harr]
      rfl
    | float d =>
      apply visit_member hd rfl
      simp only [Entry.key, Entry.scalar, scalarEvent, toJsonCallbacks, bkvToJsonFloat, if_neg harr]
      rfl
    | _ => cases hv
  | elem v =>
    cases v with
    | str s =>
      have hs := hread s rfl
      apply visit_stopUnless invArg_ne
      simp only [Entry.key, Entry.scalar, Elem.scalar, scalarEvent, toJsonCallbacks,
        bkvToJsonStr, hs, if_true, calls_singleton]
      rfl
    | boolean b =>
      apply visit_stopUnless invArg_ne
      simp only [Entry.key, Entry.scalar, Elem.scalar, scalarEvent, toJsonCallbacks,
        bkvToJsonBoolean, if_true, calls_singleton]
      rfl
    | float d =>
      apply visit_stopUnless invArg_ne
      simp only [Entry.key, Entry.scalar, Elem.scalar, scalarEvent, toJsonCallbacks, bkvToJsonFloat,
        if_true, calls_singleton]
      rfl
    | _ => cases he

theorem renders_shown (env : Env) (accept : Accept) (hd : Knows z dv names) :
    Renders env z accept dv (renderCall accept names) Call.Shown where
  opening := fun off _ _ cnt g hk => visit_opening env accept off hd hk cnt g
  closing := fun k key g => visit_closing names k key g
  add := fun g he hfit hz => visit_add hd he hfit hz g

section Rendering
variable {r : Renderer} {p : Call → Prop} (hr : Renders env z accept dv r p)
include hr

/-- The walk of a document is the rendering of its calls. -/
theorem Renders.walk {ck cn : Nat → UInt16} {f : Items}
    (hfit : ByteMemory.Fits z.mem off (enc f)) (hz : off + size f ≤ z.size)
    (hf : ∀ c ∈ calls f, p c) (g : Gen) :
    (placed ck cn deep off f).walk (visit (toJsonCallbacks env z accept)) ⟨false, dv, g⟩ =
      .ok ((renderWith r (calls f) g).1, ⟨false, dv, (renderWith r (calls f) g).2⟩) := by
  induction f generalizing deep off g with
  | nil => rfl
  | leaf e rest ih =>
    rw [fits_leaf] at hfit
    rw [calls_leaf, List.forall_mem_cons] at hf
    rw [size] at hz
    rw [placed, walk, hr.add g hf.1 hfit.1 (by omega), calls_leaf, renderWith_cons, visited_ok]
    cases (r (.add e) g).1 with
    | true => rfl
    | false => exact ih hfit.2 (by omega) hf.2 _
  | node l body rest ihb ih =>
    obtain ⟨k, key⟩ := l
    obtain ⟨-, hb, -, hrest⟩ := fits_node.mp hfit
    simp only [calls_node, List.forall_mem_cons, List.forall_mem_append] at hf
    obtain ⟨hk, hfb, -, hfr⟩ := hf
    rw [size] at hz
    dsimp only at hz
    rw [placed, walk, hr.opening off _ g hk, calls_node, renderWith_cons, renderWith_append,
      renderWith_cons]
    cases (r (.opening k key) g).1 with
    | true => rfl
    | false =>
      simp only [enter, Bool.false_eq_true, if_false]
      rw [ihb hb (by omega) hfb]
      cases (renderWith r (calls body) (r (.opening k key) g).2).1 with
      | true => rfl
      | false =>
        simp only [Outcome.next_going, Bool.false_eq_true, if_false]
        rw [hr.closing, visited_ok]
        cases (r (.closing k) _).1 with
        | true => rfl
        | false => exact ih hrest (by omega) hfr _

end Rendering

theorem dictionary_append (ws ws' : List (UInt16 × List UInt8)) :
    dictionary (ws ++ ws') = dictionary ws ++ dictionary ws' := by
  induction ws with
  | nil => rfl
  | cons p ws ih => rw [List.cons_append, dictionary, dictionary, ih, leaf_append]

theorem hidden_dictionary {ws : List (UInt16 × List UInt8)} {key : UInt16}
    (h : ∀ p ∈ ws, (key != p.1) = true) : Hidden key (dictionary ws) := by
  induction ws with
  | nil => trivial
  | cons p ws ih =>
    obtain ⟨key', w⟩ := p
    rw [List.forall_mem_cons, bne_iff_ne] at h
    exact ⟨h.1.symm, ih h.2⟩

theorem hidden_within {f : Items} (hf : ∀ c ∈ calls f, c.Within 0xFFC) : Hidden bkvDicoKey f := by
  have hne : ∀ key : UInt16, key ≤ 0xFFC → key ≠ bkvDicoKey := by
    rintro key hk rfl
    exact absurd hk (by simp [bkvDicoKey])
  induction f with
  | nil => trivial
  | leaf e rest ih =>
    rw [calls_leaf, List.forall_mem_cons] at hf
    refine ⟨?_, ih hf.2⟩
    cases e with
    | keyed key v => exact hne _ hf.1
    | elem v => exact fun h => absurd h (by simp [Entry.key, bkvArrayKey, bkvDicoKey])
  | node l body rest ihb ih =>
    obtain ⟨k, key⟩ := l
    simp only [calls_node, List.forall_mem_cons, List.forall_mem_append] at hf
    exact ⟨hne _ hf.1, fun _ => ihb hf.2.1, ih hf.2.2.2⟩

theorem knows_dictionary {ws : List (UInt16 × List UInt8)} (hv : dv.priv = off)
    (hm : MapAt z off bkvDicoKey (dictionary ws)) : Knows z dv fun key => ws.lookup key := by
  intro jump g key
  change _ = Except.ok (ws.lookup key)
  rw [dicoName]
  cases hl : ws.lookup key with
  | none =>
    rw [List.lookup_eq_none_iff] at hl
    rw [hm.get2_miss (v := dv) hv (hidden_dictionary hl)]
    rfl
  | some w =>
    obtain ⟨l₁, l₂, rfl, hne⟩ := List.lookup_eq_some_iff.mp hl
    rw [dictionary_append, dictionary] at hm
    obtain ⟨val, hget, hu, hread⟩ := hm.get2_str (v := dv) hv (hidden_dictionary hne) _
    rw [hget, ok_bind]
    simp only [hu, readBytes, hread, ne_eq, not_true_eq_false, if_false]
    rfl

theorem shown_within {c : Call} (h : c.Shown) : c.Within 0xFFC := by
  cases c with
  | opening k key => exact h
  | closing k => trivial
  | add e =>
    cases e with
    | keyed key v => exact h.1
    | elem v => trivial

theorem Call.Within.mono {c : Call} {a b : UInt16} (hab : a ≤ b) (h : c.Within a) : c.Within b := by
  cases c with
  | opening k key => exact UInt16.le_trans h hab
  | closing k => trivial
  | add e =>
    cases e with
    | keyed key v => exact UInt16.le_trans h hab
    | elem v => trivial

theorem Sim.mapAt {h : Bkv} {f : Items} (hs : Sim h (.complete bkvNoKey f))
    (hsize : h.writeOffset ≤ 65535) (hf : ∀ c ∈ calls f, c.Within 0xFFF) :
    MapAt (bkvGetHead h) 0 bkvNoKey f := by
  obtain ⟨hfit, hw⟩ := hs.laid
  have hall : ∀ c ∈ calls (.node (.map, bkvNoKey) f .nil), c.Within 0xFFF := by
    simp only [calls_node, calls_nil, List.forall_mem_cons, List.forall_mem_append]
    exact ⟨(by decide : bkvNoKey ≤ 0xFFF), hf, trivial, by simp⟩
  exact mapAt_head hfit hw hsize (within_fit (by decide) (hw ▸ hsize) hall)

theorem MapAt.inner {key key' : UInt16} {f inner rest : Items}
    (hm : MapAt z off key (f ++ .node (.map, key') inner rest)) :
    MapAt z (off + 4 + size f) key' inner := by
  obtain ⟨hfit, hin, hnear, hcs, hsmall⟩ := hm
  have hcalls : calls (.node (.map, key) (f ++ .node (.map, key') inner rest) .nil) =
      .opening .map key :: calls f ++ (calls (.node (.map, key') inner .nil) ++
        (calls rest ++ [.closing .map])) := by
    simp
  simp only [size, size_append, Kind.openWidth, Kind.closeWidth] at hin hsmall
  refine ⟨?_, ?_, by omega, fun c hc => hcs c ?_, by omega⟩
  · simp only [enc, enc_append, fits_append, header_length, enc_length, Kind.openWidth] at hfit
    simp only [enc, fits_append, header_length, enc_length, Kind.openWidth]
    obtain ⟨-, ⟨-, hhead, hbody, hclose, -⟩, -⟩ := hfit
    exact ⟨hhead, hbody, hclose, fits_nil⟩
  · simp only [size, Kind.openWidth, Kind.closeWidth]
    omega
  · rw [hcalls, List.mem_append, List.mem_append]
    exact .inr (.inl hc)

theorem MapAt.first {key : UInt16} {f rest : Items} (hm : MapAt z off key (f ++ rest)) :
    ByteMemory.Fits z.mem (off + 4) (enc f) ∧ off + 4 + size f ≤ z.size := by
  obtain ⟨hfit, hin, -, -, -⟩ := hm
  simp only [enc, enc_append, fits_append, header_length, Kind.openWidth] at hfit
  simp only [size, size_append, Kind.openWidth] at hin
  exact ⟨hfit.2.1.1, by omega⟩

theorem MapAt.last {key key' : UInt16} {f inner rest : Items}
    (hm : MapAt z off key (f ++ .node (.map, key') inner rest)) :
    ByteMemory.Fits z.mem (off + 4 + size f + 4 + size inner + 2) (enc rest) ∧
      off + 4 + size f + 4 + size inner + 2 + size rest ≤ z.size := by
  obtain ⟨hfit, hin, -, -, -⟩ := hm
  simp only [enc, enc_append, fits_append, header_length, enc_length, closePattern_length,
    Kind.openWidth, Kind.closeWidth] at hfit
  simp only [size, size_append, Kind.openWidth, Kind.closeWidth] at hin
  obtain ⟨-, ⟨-, -, -, -, hrest⟩, -⟩ := hfit
  exact ⟨hrest, by omega⟩

theorem visit_dico (c : ToJsonCtx) :
    visit (toJsonCallbacks env z accept) (.mapOpen off bkvDicoKey) c = .ok (⟨true, false⟩, c) := by
  have hgoto : actionGotoEndMap ≠ 0 := by decide
  have hstop : actionGotoEndMap &&& actionStopLoop = 0 := by decide
  have hcb : toJsonCallbacks env z accept (.mapOpen off bkvDicoKey) c =
    .ok (actionGotoEndMap, c) := by
    rw [toJsonCallbacks, bkvToJsonMapOpen]
    split <;> rfl
  rw [visit, hcb]
  simp [Except.map, skips, Event.isMapOpen, hgoto, hstop]

/-- The walk of a document leaves its dictionary out. -/
theorem Renders.document {r : Renderer} {p : Call → Prop} (hr : Renders env z accept dv r p)
    {key : UInt16} {f g rest : Items}
    (hm : MapAt z off key (f ++ .node (.map, bkvDicoKey) g rest)) (hkey : p (.opening .map key))
    (hf : ∀ c ∈ calls f, p c) (hrest : ∀ c ∈ calls rest, p c) (ck cn : Nat → UInt16) (gen : Gen) :
    (placed ck cn 0 off (.node (.map, key) (f ++ .node (.map, bkvDicoKey) g rest) .nil)).walk
        (visit (toJsonCallbacks env z accept)) ⟨false, dv, gen⟩ =
      .ok ((renderWith r (calls (.node (.map, key) (f ++ rest) .nil)) gen).1,
        ⟨false, dv, (renderWith r (calls (.node (.map, key) (f ++ rest) .nil)) gen).2⟩) := by
  obtain ⟨hfit, hz⟩ := hm.first
  obtain ⟨hfit', hz'⟩ := hm.last
  rw [placed, Forest.walk, hr.opening off _ gen hkey, calls_node, renderWith_cons, calls_append,
    List.append_assoc, renderWith_append, renderWith_append, renderWith_cons]
  cases (r (.opening .map key) gen).1 with
  | true => rfl
  | false =>
    simp only [enter, Bool.false_eq_true, if_false, Kind.openWidth]
    rw [placed_append, walk_append, hr.walk hfit hz hf]
    cases (renderWith r (calls f) (r (.opening .map key) gen).2).1 with
    | true => rfl
    | false =>
      simp only [placed, Forest.walk, openEvent, visit_dico, enter, Outcome.next_going,
        Bool.false_eq_true, if_false, if_true, Kind.openWidth, Kind.closeWidth]
      rw [hr.walk hfit' hz' hrest]
      cases (renderWith r (calls rest) _).1 with
      | true => rfl
      | false =>
        simp only [Outcome.next_going, Outcome.next_done, Bool.false_eq_true, if_false]
        rw [hr.closing, visited_ok]
        cases (r (.closing .map) _).1 <;> rfl

/-- What is made of a document with a dictionary, as a rendering of the rest of it. -/
theorem toJson_renders (env : Env) (accept : Accept) {h : Bkv} {key : UInt16} {f rest : Items}
    {ws : List (UInt16 × List UInt8)} {r : Renderer} {p : Call → Prop}
    (hr : ∀ dv, Knows (bkvGetHead h) dv (fun key => ws.lookup key) →
      Renders env (bkvGetHead h) accept dv r p)
    (hp : ∀ c, p c → c.Within 0xFFC)
    (hm : MapAt (bkvGetHead h) 0 key (f ++ .node (.map, bkvDicoKey) (dictionary ws) rest))
    (hkey : p (.opening .map key)) (hf : ∀ c ∈ calls f, p c) (hrest : ∀ c ∈ calls rest, p c) :
    bkvToJson env accept h = .ok (bkvOk,
      (renderWith r (calls (.node (.map, key) (f ++ rest) .nil)) ⟨[], []⟩).2) := by
  obtain ⟨val, hget, hval⟩ := hm.get2_map
    (v := { bkvValInitValue with type := .object, key := key, priv := 0 }) rfl
    (hidden_within fun c hc => hp c (hf c hc)) fun _ => bkvValInitValue
  have hd : Knows (bkvGetHead h) (val 0) fun key => ws.lookup key :=
    knows_dictionary (by rw [hval]) hm.inner
  have hbound : key ≤ 0xFFF := UInt16.le_trans (hp _ hkey) (by decide)
  have hinit := bkvValInit_map hm.laid hm.inside hbound bkvValInitValue
  have hroot : ∀ r' s', toJsonCallbacks env (bkvGetHead h) accept (.mapOpen 0 key)
      ⟨false, val 0, ⟨[], []⟩⟩ = .ok (r', s') → r' &&& actionGotoEndMap = 0 := by
    intro r' s' hcb
    have hvis := (hr _ hd).opening 0 0 ⟨[], []⟩ hkey
    rw [openEvent, visit, hcb] at hvis
    simp only [Except.map, skips, Event.isMapOpen, Bool.true_and, Except.ok.injEq,
      Prod.mk.injEq, Ask.mk.injEq, decide_eq_false_iff_not, ne_eq, not_not] at hvis
    exact hvis.1.1
  simp only [bkvToJson, hinit, hget, ok_bind, ne_eq, not_true_eq_false, if_false, bkvValForeach]
  rw [valForeach_eq_walk rfl hm.laid hm.inside hm.near hm.fitting (.inl hm.small) hroot,
    (hr _ hd).document hm hkey hf hrest]
  rfl

theorem toJson_mapAt (env : Env) (accept : Accept) {h : Bkv} {key : UInt16} {f rest : Items}
    {ws : List (UInt16 × List UInt8)}
    (hm : MapAt (bkvGetHead h) 0 key (f ++ .node (.map, bkvDicoKey) (dictionary ws) rest))
    (hkey : key ≤ 0xFFC) (hf : ∀ c ∈ calls f, c.Shown) (hrest : ∀ c ∈ calls rest, c.Shown) :
    bkvToJson env accept h = .ok (bkvOk, (render accept (fun key => ws.lookup key)
      (calls (.node (.map, key) (f ++ rest) .nil)) ⟨[], []⟩).2) :=
  toJson_renders env accept (fun _ hd => renders_shown env accept hd)
    (fun _ hc => shown_within hc) hm hkey hf hrest

theorem toJson_document (env : Env) (accept : Accept) {h : Bkv} {f : Items}
    {ws : List (UInt16 × List UInt8)}
    (hs : Sim h (.complete bkvNoKey (f ++ .node (.map, bkvDicoKey) (dictionary ws) .nil)))
    (hsize : h.writeOffset ≤ 65535) (hf : ∀ c ∈ calls f, c.Shown) (hws : ∀ p ∈ ws, p.1 ≤ 0xFFF) :
    bkvToJson env accept h = .ok (bkvOk, (render accept (fun key => ws.lookup key)
      (calls (.node (.map, bkvNoKey) f .nil)) ⟨[], []⟩).2) := by
  have hm := hs.mapAt hsize (by
    simp only [calls_append, calls_node, calls_nil, List.forall_mem_append, List.forall_mem_cons]
    exact ⟨fun c hc => (shown_within (hf c hc)).mono (by decide),
      (by decide : bkvDicoKey ≤ 0xFFF), dictionary_within hws, trivial, by simp⟩)
  have hjson := toJson_mapAt env accept hm (by decide) hf (by simp)
  rwa [append_nil] at hjson

end Wtools
