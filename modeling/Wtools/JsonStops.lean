import Wtools.JsonEvents
import Wtools.Nesting
import Wtools.Splice

/-!
# A text that stops early

The parser is content with a text that is valid as far as it goes, and nobody asks it whether the
text was complete. `bkv_from_json` then splices the dictionary into the innermost map that is open
and closes that map: a document only when it is the root.
-/

namespace Wtools
open ByteMemory Forest

variable {env : Env} {heap : Heap} {float : List UInt8 → UInt32} {type : DicoType}
  {es : List JsonEvent} {j : Json .map}

section Dictionary
variable {ws : List (List UInt8)} {d : Dico}

theorem dico_created (hcr : Creates env) {r : Int} {o : Option Dico}
    (h : bkvDicoCreate env 1 heap type = .ok (r, o)) :
    r ≠ bkvOk ∧ type = .endValue ∨
      r = bkvOk ∧ ∃ d, o = some d ∧ DicoTaking [] type d := by
  cases type with
  | direct =>
    obtain ⟨h₀, hcreate, hs⟩ := direct_created hcr heap
    rw [hcreate] at h
    cases h
    replace hs : Sim h₀ (.inside ⟨.map, bkvDicoKey, dictionary []⟩ []) := hs
    exact .inr ⟨rfl, _, rfl, .direct hs (by simp) fun _ => rfl⟩
  | cached =>
    cases hm : heap.malloc heap.calls with
    | true =>
      rw [cached_create hcr hm] at h
      cases h
      exact .inr ⟨rfl, _, rfl, .cached _ fun _ => cachedHead_all⟩
    | false =>
      simp only [bkvDicoCreate, dicoCachedCreate, wgKeytreeCreate, hm, hcr.mallocHandle] at h
      cases h
  | endValue =>
    cases h
    exact .inl ⟨by decide, rfl⟩

/-- A dictionary that can be turned into a document gives one of strings. -/
theorem DicoTaking.destroyed (hcr : Creates env) (hd : DicoTaking ws type d)
    (hlow : type = .direct ∨ ws.length ≤ 4091) {r : Int} {o : Option Bkv}
    (h : bkvDicoDestroy env 1 d = .ok (r, o)) :
    r = bkvOk ∧ ∃ a recs, o = some a ∧ Sim a (.complete bkvDicoKey (dictionary recs)) ∧
      (∀ p ∈ recs, p.1 ≤ 0xFFF) ∧ (type = .direct → ws.length ≤ 4091 → recs = numbered 0 ws) := by
  cases hd with
  | @direct h₀ recs hs hr hn =>
    obtain ⟨a, hx, ha⟩ := hs.accept env (c := .closing .map) rfl
    have hx' : bkvKvMapClose env h₀ = (bkvOk, a) := hx
    simp only [bkvDicoDestroy, dicoDirectDestroy, hx'] at h
    cases h
    exact ⟨rfl, a, recs, rfl, ha, hr, fun _ => hn⟩
  | @cached head heap' hk =>
    have hlen : ws.length ≤ 4091 := hlow.resolve_left (by simp)
    cases hcalls : keytreeForeach head.top [] with
    | error e =>
      rw [cached_destroy_error hcr heap' hcalls] at h
      cases h
    | ok calls =>
      obtain ⟨a, hdestroy, ha⟩ := cached_destroy hcr heap' (hk hlen) hcalls
      rw [hdestroy] at h
      cases hrel : wgKeyRelease head.top with
      | error e =>
        rw [hrel] at h
        cases h
      | ok top =>
        rw [hrel] at h
        cases h
        refine ⟨rfl, a, shownWords calls, rfl, ha, ?_, by simp⟩
        intro p hp
        exact UInt16.le_trans (shownWords_le (hk hlen) hcalls p hp) (by decide)

end Dictionary

section Splice

/-- The end of `bkv_from_json`, with the document of the dictionary. -/
def spliceDico (env : Env) (h a : Bkv) : Int × Option Bkv :=
  let (l_error, h) := bkvAppend env h a.toTail
  if l_error ≠ bkvOk then (l_error, some h)
  else
    let (l_error, h) := bkvKvMapClose env h
    (l_error, some h)

/-- What `bkv_from_json` makes of what `bkv_dico_destroy` gives. -/
def appendNames (env : Env) (data : Bkv) : Int × Option Bkv → Int × Option Bkv
  | (l_error, none) => (l_error, some data)
  | (_, some a) => spliceDico env data a

/-- The data handle and the document of the dictionary when they are put together. -/
structure Ready (env : Env) (type : DicoType) (es : List JsonEvent) (h a : Bkv)
    (recs : List (UInt16 × List UInt8)) : Prop where
  data : es = [] ∧ h = freshHandle env 0 (-1) ∨
    Writing ((eventNames es).length ≤ 4091) h (held es)
  dico : Sim a (.complete bkvDicoKey (dictionary recs))
  keys : ∀ p ∈ recs, p.1 ≤ 0xFFF
  names : type = .direct → (eventNames es).length ≤ 4091 → recs = numbered 0 (eventNames es)

theorem bkvCreate_refused {r : Int} {o : Option Bkv} (hcr : ¬Creates env)
    (h : bkvCreate env 0 { bkvCreateInit with createType := .workInRam } = (r, o)) :
    r ≠ bkvOk ∧ o = none := by
  have hmem : bkvHdlMem ≠ bkvOk := by decide
  cases hm : env.malloc bkvDefaultMemChunkSize with
  | false =>
    simp [bkvCreate, openBuffer, hm] at h
    obtain ⟨rfl, rfl⟩ := h
    exact ⟨hmem, rfl⟩
  | true =>
    cases hh : env.mallocHandle with
    | false =>
      simp [bkvCreate, openBuffer, hm, hh] at h
      obtain ⟨rfl, rfl⟩ := h
      exact ⟨hmem, rfl⟩
    | true => exact absurd ⟨hm, hh⟩ hcr

/-- The ways through `bkv_from_json` when there is memory for the handles. -/
theorem bkvFromJson_created (hcr : Creates env) {x : Int × Option Bkv}
    (h : bkvFromJson env heap float type es = .ok x) :
    x.1 ≠ bkvOk ∧ type = .endValue ∨ ∃ d₀ ok c,
      bkvDicoCreate env 1 heap type = .ok (bkvOk, some d₀) ∧ DicoTaking [] type d₀ ∧
      yajlParse env float es (startCtx env d₀) = .ok (ok, c) ∧
      (ok = false → x = (bkvInvArg, none)) ∧
      (ok = true → ∀ d, c.dicoHandle = some d → ∃ y, bkvDicoDestroy env 1 d = .ok y ∧
        x = appendNames env c.dataHandle y) := by
  rw [bkvFromJson, hcr.create] at h
  dsimp only at h
  rw [if_neg (not_not_intro rfl)] at h
  obtain ⟨⟨r, o⟩, hcreate, h⟩ := bind_ok h
  dsimp only at h
  rcases dico_created hcr hcreate with ⟨hr, htype⟩ | ⟨rfl, d₀, rfl, htaking⟩
  · rw [if_pos hr] at h
    cases h
    exact .inl ⟨hr, htype⟩
  · rw [if_neg (not_not_intro rfl)] at h
    obtain ⟨⟨r, c⟩, hparse, h⟩ := bind_ok h
    obtain ⟨⟨ok, c'⟩, hrun, hres⟩ := bind_ok hparse
    replace hrun : yajlParse env float es (startCtx env d₀) = .ok (ok, c') := hrun
    cases hres
    refine .inr ⟨d₀, ok, c, hcreate, htaking, hrun, ?_, ?_⟩
    · rintro rfl
      cases h
      rfl
    · rintro rfl d hd
      simp only [if_true, ne_eq, not_true_eq_false, if_false, hd] at h
      obtain ⟨⟨r, o⟩, hdestroy, h⟩ := bind_ok h
      refine ⟨(r, o), hdestroy, Except.ok.inj (h.symm.trans ?_)⟩
      cases o with
      | none => rfl
      | some a =>
        dsimp only [appendNames, spliceDico]
        split
        all_goals rfl

/-- Every way through `bkv_from_json` that does not end in the key tree. -/
theorem fromJson_cases (hpre : es <+: j.text)
    (hlow : type = .direct ∨ (eventNames es).length ≤ 4091) {x : Int × Option Bkv}
    (h : bkvFromJson env heap float type es = .ok x) :
    x.1 ≠ bkvOk ∧ (¬Creates env ∨ type = .endValue) ∨
      Creates env ∧ ∃ h₀ a recs, Ready env type es h₀ a recs ∧ x = spliceDico env h₀ a := by
  by_cases hcr : Creates env
  · rcases bkvFromJson_created hcr h with ⟨hr, htype⟩ | ⟨d₀, ok, c, -, htaking, hrun, -, hend⟩
    · exact .inl ⟨hr, .inr htype⟩
    · have hstopped : ok = true ∧ (es = [] ∧ c.dataHandle = freshHandle env 0 (-1) ∨
          Writing ((eventNames es).length ≤ 4091) c.dataHandle (held es)) ∧
          ∃ d, c.dicoHandle = some d ∧ DicoTaking (eventNames es) type d := by
        by_cases hne : es = []
        · subst hne
          cases hrun
          exact ⟨rfl, .inl ⟨rfl, rfl⟩, d₀, rfl, htaking⟩
        · obtain ⟨hok, hstop⟩ := stopped_of_parse hcr htaking hpre hne hrun
          exact ⟨hok, .inr hstop.writing, hstop.dico⟩
      obtain ⟨hok, hdata, d, hd, htaking'⟩ := hstopped
      obtain ⟨⟨r, o⟩, hdestroy, rfl⟩ := hend hok d hd
      obtain ⟨rfl, a, recs, rfl, ha, hkeys, hnames⟩ := htaking'.destroyed hcr hlow hdestroy
      exact .inr ⟨hcr, c.dataHandle, a, recs, ⟨hdata, ha, hkeys, hnames⟩, rfl⟩
  · rw [bkvFromJson] at h
    cases hx : bkvCreate env 0 { bkvCreateInit with createType := .workInRam } with
    | mk r o =>
      obtain ⟨hr, rfl⟩ := bkvCreate_refused hcr hx
      rw [hx] at h
      cases h
      exact .inl ⟨hr, .inl hcr⟩

theorem splice_ok {h a h' : Bkv} (hx : spliceDico env h a = (bkvOk, some h')) :
    (bkvAppend env h a.toTail).1 = bkvOk ∧
      exec env (bkvAppend env h a.toTail).2 (.closing .map) = (bkvOk, h') := by
  have happ : (bkvAppend env h a.toTail).1 = bkvOk := by
    by_contra hne
    simp only [spliceDico, hne, ne_eq, not_false_eq_true, if_true, Prod.mk.injEq, false_and] at hx
  simp only [spliceDico, happ, ne_eq, not_true_eq_false, if_false] at hx
  replace hx : ((exec env (bkvAppend env h a.toTail).2 (.closing .map)).1,
      some (exec env (bkvAppend env h a.toTail).2 (.closing .map)).2) = (bkvOk, some h') := hx
  rw [Prod.mk.injEq, Option.some.injEq] at hx
  exact ⟨happ, Prod.ext hx.1 hx.2⟩

/-- The document of the dictionary becomes the last record of the innermost container, which is a
map and is closed. -/
theorem Sim.spliced {h a h' : Bkv} {fr : Frame} {outer : List Frame} {items : Items}
    (hs : Sim h (.inside fr outer)) (ha : Sim a (.complete bkvDicoKey items))
    (hx : spliceDico env h a = (bkvOk, some h')) :
    fr.kind = .map ∧
      (outer = [] → Sim h' (.complete fr.key
        (fr.done ++ .node (.map, bkvDicoKey) items .nil))) ∧
      (outer ≠ [] → h'.state ≠ .term) := by
  obtain ⟨happ, hclose⟩ := splice_ok hx
  have hlegal := legal_map fr.kind bkvDicoKey ha.legal
  have hs' := hs.append_ok env (a := a.toTail) hlegal ha.laid.1 ha.laid.2 happ
  obtain ⟨p', hn⟩ := Option.isSome_iff_exists.mp
    ((exec_accepted env hs'.ram hs'.controls (.closing .map)).mp (congrArg Prod.fst hclose))
  have hafter := hs'.exec env (.closing .map)
  rw [hclose, Position.next, hn] at hafter
  obtain ⟨-, hadv⟩ := next?_eq_some.mp hn
  have hkind : fr.kind = .map := by
    by_contra hne
    cases outer <;> simp [advance, Ne.symm hne] at hadv
  refine ⟨hkind, ?_, ?_⟩
  · rintro rfl
    simp only [advance, Option.ite_none_right_eq_some, Option.some.injEq] at hadv
    rw [← hadv.2] at hafter
    exact hafter
  · intro hne hterm
    obtain ⟨key, body, rfl⟩ := hafter.complete hterm
    cases outer with
    | nil => exact hne rfl
    | cons o outer => simp [advance, hkind] at hadv

/-- Whoever is told of a success has had the innermost open container closed, and it was a map. -/
theorem Ready.closed {h a h' : Bkv} {recs : List (UInt16 × List UInt8)}
    (hr : Ready env type es h a recs) (hx : spliceDico env h a = (bkvOk, some h')) :
    ∃ fr outer, fr.kind = .map ∧ (fr :: outer).map Frame.kind = held es ∧
      ((eventNames es).length ≤ 4091 → ∀ c ∈ (Position.inside fr outer).calls, c.Within 0xFFF) ∧
      (outer = [] → Sim h' (.complete fr.key
        (fr.done ++ .node (.map, bkvDicoKey) (dictionary recs) .nil))) ∧
      (outer ≠ [] → h'.state ≠ .term) := by
  rcases hr.data with ⟨-, rfl⟩ | ⟨fr, outer, hs, hkinds, hwithin⟩
  · -- nothing was written, and a map that was not opened is not closed
    obtain ⟨-, hclose⟩ := splice_ok hx
    have hclosed : (bkvAppend env (freshHandle env 0 (-1)) a.toTail).2.fd = -1 ∧
        Controls (bkvAppend env (freshHandle env 0 (-1)) a.toTail).2 .start := by
      rcases bkvAppend_cases env (freshHandle env 0 (-1)) a.toTail with ⟨-, hkept⟩ | ⟨n, happ'⟩
      · rw [hkept]
        exact ⟨rfl, rfl, rfl⟩
      · rw [happ']
        exact ⟨rfl, rfl, rfl⟩
    have hno := (exec_accepted env hclosed.1 hclosed.2 (.closing .map)).mp (congrArg Prod.fst hclose)
    cases hno
  · obtain ⟨hkind, hroot, hinside⟩ := hs.spliced hr.dico hx
    exact ⟨fr, outer, hkind, hkinds, hwithin, hroot, hinside⟩

theorem Ready.succeeds (hre : ∀ n, env.realloc n) {h a : Bkv} {recs : List (UInt16 × List UInt8)}
    (hr : Ready env type es h a recs) {s : List Kind} (hheld : held es = .map :: s) :
    ∃ h', spliceDico env h a = (bkvOk, some h') := by
  rcases hr.data with ⟨rfl, -⟩ | ⟨fr, outer, hs, hkinds, -⟩
  · cases hheld
  · rw [hheld, List.map_cons, List.cons.injEq] at hkinds
    obtain ⟨hkind, -⟩ := hkinds
    have hlegal := legal_map fr.kind bkvDicoKey hr.dico.legal
    obtain ⟨happ, hs'⟩ := hs.append env (a := a.toTail) hre hlegal hr.dico.laid.1 hr.dico.laid.2
    have hok : (exec env (bkvAppend env h a.toTail).2 (.closing .map)).1 = bkvOk := by
      rw [exec_accepted env hs'.ram hs'.controls]
      cases outer <;> simp [Position.next?, Call.inRange, advance, hkind]
    refine ⟨(exec env (bkvAppend env h a.toTail).2 (.closing .map)).2, ?_⟩
    simp only [spliceDico, happ, ne_eq, not_true_eq_false, if_false]
    exact Prod.ext hok rfl

end Splice

section Direct
variable {c : FromJsonCtx} {h₀ : Bkv}

theorem direct_callback (env : Env) (float : List UInt8 → UInt32)
    (hd : c.dicoHandle = some (.direct h₀)) (e : JsonEvent) :
    ∃ r c' h₁, jsonCallback env float e c = .ok (r, c') ∧ c'.dicoHandle = some (.direct h₁) := by
  cases hname : e.name? with
  | none =>
    have hok : ∃ r c', jsonCallback env float e c = .ok (r, c') := by
      cases e with
      | mapKey w => cases hname
      | _ => exact ⟨_, _, rfl⟩
    obtain ⟨r, c', hcall⟩ := hok
    exact ⟨r, c', h₀, hcall, (callback_dico hname hcall).1.trans hd⟩
  | some w =>
    cases e with
    | mapKey w' =>
      rw [jsonCallback, bkvJsonMapKeys, hd]
      simp only [bkvDicoKeyAdd, dicoDirectKeyAdd, pure_ok, ok_bind]
      split
      · exact ⟨_, _, _, rfl, rfl⟩
      · exact ⟨_, _, _, rfl, rfl⟩
    | _ => cases hname

theorem direct_parse (env : Env) (float : List UInt8 → UInt32)
    (hd : c.dicoHandle = some (.direct h₀)) (es : List JsonEvent) :
    ∃ ok c' h₁, yajlParse env float es c = .ok (ok, c') ∧ c'.dicoHandle = some (.direct h₁) := by
  induction es generalizing c h₀ with
  | nil => exact ⟨_, _, _, rfl, hd⟩
  | cons e es ih =>
    obtain ⟨r, c₁, h₁, hcall, hd₁⟩ := direct_callback env float hd e
    rw [yajlParse, hcall, ok_bind]
    dsimp only
    split
    · exact ⟨_, _, _, rfl, hd₁⟩
    · exact ih hd₁

theorem direct_returns (heap : Heap) (float : List UInt8 → UInt32) (hcr : Creates env)
    (es : List JsonEvent) : ∃ x, bkvFromJson env heap float .direct es = .ok x := by
  obtain ⟨h₀, hcreate, -⟩ := direct_created hcr heap
  obtain ⟨ok, c, h₁, hrun, hd⟩ :=
    direct_parse env float (show (startCtx env (.direct h₀)).dicoHandle = _ from rfl) es
  have hparse : bkvFromJsonYajlParse env float es
      ⟨freshHandle env 0 (-1), some (.direct h₀), 0, false, 0, 0⟩ =
        .ok (if ok then bkvOk else bkvInvArg, c) := by
    rw [bkvFromJsonYajlParse]
    exact congrArg (fun x => x >>= _) hrun
  rw [bkvFromJson, hcr.create]
  simp only [hcreate, ok_bind, hparse, hd, bkvDicoDestroy]
  cases ok with
  | false => exact ⟨_, rfl⟩
  | true =>
    simp only [if_true, ne_eq, not_true_eq_false, if_false]
    cases (dicoDirectDestroy env h₁).2 with
    | none => exact ⟨_, rfl⟩
    | some a =>
      dsimp only
      split
      · exact ⟨_, rfl⟩
      · exact ⟨_, rfl⟩

/-- The nesting stack of the data handle stays inside its 32 entries, however far the text is read. -/
def StacksInside (env : Env) (heap : Heap) (float : List UInt8 → UInt32) (text : List JsonEvent) :
    Prop :=
  ∀ es, es <+: text → ∀ d₀ ok c, bkvDicoCreate env 1 heap .direct = .ok (bkvOk, some d₀) →
    yajlParse env float es (startCtx env d₀) = .ok (ok, c) → c.dataHandle.deepOffset ≤ 31

/-- The stacks have room for a text exactly when it is shallow. -/
theorem stacksInside_iff (hcr : Creates env) (heap : Heap) (float : List UInt8 → UInt32)
    (j : Json .map) : StacksInside env heap float j.text ↔ Shallow j.text := by
  have hdeep : ∀ es, es <+: j.text → ∀ d₀ ok c,
      bkvDicoCreate env 1 heap .direct = .ok (bkvOk, some d₀) →
      yajlParse env float es (startCtx env d₀) = .ok (ok, c) →
      c.dataHandle.deepOffset + 1 = (held es).length := by
    intro es hpre d₀ ok c hcreate hparse
    by_cases hne : es = []
    · subst hne
      cases hparse
      exact (hcr.fresh_sim 0).deepOffset
    · rcases dico_created hcr hcreate with ⟨hno, -⟩ | ⟨-, d, hd, htaking⟩
      · exact absurd rfl hno
      · cases hd
        obtain ⟨-, hstopped⟩ := stopped_of_parse hcr htaking hpre hne hparse
        obtain ⟨fr, outer, hs, hkinds, -⟩ := hstopped.writing
        rw [hs.deepOffset, ← hkinds, List.length_map]
        rfl
  constructor
  · intro hinside es hes
    rw [List.mem_inits] at hes
    obtain ⟨h₀, hcreate, -⟩ := direct_created hcr heap
    obtain ⟨ok, c, -, hparse, -⟩ :=
      direct_parse env float (show (startCtx env (.direct h₀)).dicoHandle = _ from rfl) es
    have hup := hinside es hes _ ok c hcreate hparse
    have heq := hdeep es hes _ ok c hcreate hparse
    omega
  · intro hshallow es hes d₀ ok c hcreate hparse
    have heq := hdeep es hes d₀ ok c hcreate hparse
    have hup := hshallow es ((List.mem_inits _ _).mpr hes)
    omega

end Direct

section Closed

/-- A document that is closed: the writer is in its final state, and a traversal from the head ends
with the close of the outermost map, at the end of what was written. -/
def ClosedDocument (h : Bkv) : Prop :=
  h.state = .term ∧ ∃ evs key, Traverses h (evs ++ [.mapClose key])

theorem Call.Within.inRange {c : Call} (h : c.Within 0xFFF) : c.inRange := by
  rcases c with - | - | ⟨key, v⟩ | v
  · rfl
  · rfl
  · exact decide_eq_true h
  · rfl

theorem Sim.holdsDocument {h : Bkv} {key : UInt16} {body : Items} (hs : Sim h (.complete key body))
    (hin : ∀ c ∈ calls (.node (.map, key) body .nil), c.Within 0xFFF) :
    HoldsDocument h (calls (.node (.map, key) body .nil)) :=
  ⟨key, body, hs.legal, rfl, hs.laid.1, hs.laid.2, fun c hc => (hin c hc).inRange⟩

theorem HoldsDocument.traverses {h : Bkv} {cs : List Call} (hd : HoldsDocument h cs)
    (hsize : h.writeOffset ≤ 65535) (hk : ∀ c ∈ cs, c.Within 0xFFF) :
    ∃ evs key, Traverses h (evs ++ [.mapClose key]) := by
  obtain ⟨htrav, -⟩ := hd.reads hsize fun k key hc => hk _ hc
  obtain ⟨key, body, -, rfl, -⟩ := hd
  rw [calls_node, callEvents, callEvents_append, ← List.cons_append] at htrav
  exact ⟨_, _, htrav⟩

theorem Ready.document {h a h' : Bkv} {recs : List (UInt16 × List UInt8)}
    (hr : Ready env type es h a recs) (hx : spliceDico env h a = (bkvOk, some h'))
    (hlow : (eventNames es).length ≤ 4091) (hopen : ∀ k s, held es ≠ .map :: k :: s) :
    h'.state = .term ∧ ∃ key data,
      HoldsDocument h' (calls (.node (.map, key)
        (data ++ .node (.map, bkvDicoKey) (dictionary recs) .nil) .nil)) ∧
      ∀ c ∈ calls (.node (.map, key)
        (data ++ .node (.map, bkvDicoKey) (dictionary recs) .nil) .nil), c.Within 0xFFF := by
  obtain ⟨fr, outer, hkind, hkinds, hwithin, hroot, -⟩ := hr.closed hx
  cases outer with
  | cons o outer =>
    rw [List.map_cons, List.map_cons, hkind] at hkinds
    exact absurd hkinds.symm (hopen o.kind (outer.map Frame.kind))
  | nil =>
    have hs := hroot rfl
    have hdata : ∀ c ∈ fr.calls, c.Within 0xFFF := by
      have := hwithin hlow
      simpa [Position.calls] using this
    rw [Frame.calls, List.forall_mem_cons] at hdata
    have hall : ∀ c ∈ calls (.node (.map, fr.key)
        (fr.done ++ .node (.map, bkvDicoKey) (dictionary recs) .nil) .nil), c.Within 0xFFF := by
      simp only [calls_node, calls_append, calls_nil, List.forall_mem_cons, List.forall_mem_append]
      exact ⟨hdata.1, ⟨hdata.2, (by decide : bkvDicoKey ≤ 0xFFF), dictionary_within hr.keys,
        trivial, by simp⟩, trivial, by simp⟩
    exact ⟨hs.controls.1, fr.key, fr.done, hs.holdsDocument hall, hall⟩

/-- Success means a closed document, if and only if the text does not stop where at least two
containers are held open and the innermost of them is an object. -/
theorem success_closes_iff (env : Env) (heap : Heap) (float : List UInt8 → UInt32) (type : DicoType)
    (j : Json .map) (es : List JsonEvent) (hpre : es <+: j.text) (htype : type ≠ .endValue)
    (hnames : (eventNames es).length ≤ 4091)
    (hsize : ∀ r h, bkvFromJson env heap float type es = .ok (r, some h) → h.writeOffset ≤ 65535) :
    ((∀ k s, held es ≠ .map :: k :: s) →
      ∀ h, bkvFromJson env heap float type es = .ok (bkvOk, some h) → ClosedDocument h) ∧
    (Granted env → (type = .cached → ∃ x, bkvFromJson env heap float type es = .ok x) →
      (∀ h, bkvFromJson env heap float type es = .ok (bkvOk, some h) → ClosedDocument h) →
      ∀ k s, held es ≠ .map :: k :: s) := by
  constructor
  · intro hopen h hrun
    rcases fromJson_cases hpre (.inr hnames) hrun with ⟨hr, -⟩ | ⟨hcr, h₀, a, recs, hready, hx⟩
    · exact absurd rfl hr
    · obtain ⟨hterm, key, data, hdoc, hwithin⟩ := hready.document hx.symm hnames hopen
      exact ⟨hterm, hdoc.traverses (hsize _ _ hrun) hwithin⟩
  · intro hg hreturns hall k s hheld
    obtain ⟨x, hrun⟩ : ∃ x, bkvFromJson env heap float type es = .ok x := by
      cases type with
      | direct => exact direct_returns heap float hg.creates es
      | cached => exact hreturns rfl
      | endValue => exact absurd rfl htype
    rcases fromJson_cases hpre (.inr hnames) hrun with ⟨-, hno⟩ | ⟨hcr, h₀, a, recs, hready, rfl⟩
    · exact hno.elim (absurd hg.creates) htype
    · obtain ⟨h', hx⟩ := hready.succeeds hg.realloc hheld
      obtain ⟨fr, outer, -, hkinds, -, -, hinside⟩ := hready.closed hx
      refine hinside ?_ (hall h' (hrun.trans (congrArg _ hx))).1
      rintro rfl
      simp [hheld] at hkinds

/-- The object `{"a":{}}`. -/
def twoObjects : Json .map := .memberIn [0x61] .map .nil .nil

/-- The text `{"a":{`. -/
def stoppedText : List JsonEvent := [.startMap, .mapKey [0x61], .startMap]

theorem stoppedText_begins : stoppedText <+: twoObjects.text := ⟨[.endMap, .endMap], rfl⟩

theorem stopped_reported_complete :
    stoppedText <+: twoObjects.text ∧ ∃ h,
      bkvFromJson calmEnv calmHeap (fun _ => 0) .direct stoppedText = .ok (bkvOk, some h) ∧
      h.writeOffset = 21 ∧ h.state = .inMap ∧ ¬ClosedDocument h := by
  refine ⟨⟨[.endMap, .endMap], rfl⟩, _, rfl, rfl, rfl, ?_⟩
  rintro ⟨hterm, -⟩
  cases hterm

/-- A whole text is closed, and so is the text `{"a":{}`, but not `{"a":{`. -/
theorem success_closes_iff_twice :
    (∀ es ∈ [twoObjects.text, [.startMap, .mapKey [0x61], .startMap, .endMap]], ∀ h,
      bkvFromJson calmEnv calmHeap (fun _ => 0) .direct es = .ok (bkvOk, some h) →
        ClosedDocument h) ∧
    ¬∀ h, bkvFromJson calmEnv calmHeap (fun _ => 0) .direct stoppedText = .ok (bkvOk, some h) →
        ClosedDocument h := by
  constructor
  · simp only [List.forall_mem_cons, List.not_mem_nil, false_implies, implies_true, and_true]
    constructor
    · exact (success_closes_iff calmEnv calmHeap (fun _ => 0) .direct twoObjects _
        (List.prefix_refl _) (by decide) (by decide) (writtenSize_le (by decide +kernel))).1
        fun _ _ h => by cases h
    · exact (success_closes_iff calmEnv calmHeap (fun _ => 0) .direct twoObjects _
        ⟨[.endMap], rfl⟩ (by decide) (by decide) (writtenSize_le (by decide +kernel))).1
        fun _ _ h => by cases h
  · intro hall
    exact (success_closes_iff calmEnv calmHeap (fun _ => 0) .direct twoObjects stoppedText
      stoppedText_begins (by decide) (by decide) (writtenSize_le (by decide +kernel))).2
      calmEnv_granted (by simp) hall _ _ rfl

end Closed

end Wtools
