import Wtools.JsonStops

/-!
# The keys of the records

What the reader stores of a text with the direct dictionary, also where arrays stand in arrays. Each
record has the key of the last name before it, and no value that directly follows a name is lost.
-/

namespace Wtools
open ByteMemory Forest

variable {env : Env} {float : List UInt8 → UInt32}

/-- What the callback of an event may write while the key `k` is in force. -/
inductive MayWrite (float : List UInt8 → UInt32) (k : UInt16) : JsonEvent → Call → Prop
  | keyed {v : Value} {x : Scalar} (hx : v.scalar float = some x) :
      MayWrite float k v.event (.add (.keyed k x))
  | elem {v : Value} {x : Elem} (hx : v.elem float = some x) :
      MayWrite float k v.event (.add (.elem x))
  | opening (c : Kind) : MayWrite float k (startEvent c) (.opening c k)
  | closing (c : Kind) : MayWrite float k (endEvent c) (.closing c)

/-- The events that may leave nothing behind: values, and the brackets of arrays. -/
def JsonEvent.mayDrop : JsonEvent → Bool
  | .mapKey _ | .startMap | .endMap => false
  | _ => true

/-- The calls store the events of a text with the keys `ks` for its names, one name after the other.
What follows a name is stored under its key whenever it is not of a type that the reader drops. -/
inductive StoredUnder (float : List UInt8 → UInt32) :
    UInt16 → List UInt16 → List JsonEvent → List Call → Prop
  | nil {k : UInt16} : StoredUnder float k [] [] []
  | member {k k' : UInt16} {ks : List UInt16} {es : List JsonEvent} {cs : List Call}
      (w : List UInt8) (v : Value) (h : StoredUnder float k' ks es cs) :
      StoredUnder float k (k' :: ks) (.mapKey w :: v.event :: es)
        (((v.scalar float).map fun x => .add (.keyed k' x)).toList ++ cs)
  | memberIn {k k' : UInt16} {ks : List UInt16} {es : List JsonEvent} {cs : List Call}
      (w : List UInt8) (c : Kind) (h : StoredUnder float k' ks es cs) :
      StoredUnder float k (k' :: ks) (.mapKey w :: startEvent c :: es) (.opening c k' :: cs)
  | dropped {k : UInt16} {ks : List UInt16} {e : JsonEvent} {es : List JsonEvent} {cs : List Call}
      (he : e.mayDrop) (h : StoredUnder float k ks es cs) : StoredUnder float k ks (e :: es) cs
  | written {k : UInt16} {ks : List UInt16} {e : JsonEvent} {es : List JsonEvent} {c : Call}
      {cs : List Call} (hc : MayWrite float k e c) (h : StoredUnder float k ks es cs) :
      StoredUnder float k ks (e :: es) (c :: cs)

theorem StoredUnder.within {k : UInt16} {ks : List UInt16} {es : List JsonEvent} {cs : List Call}
    (h : StoredUnder float k ks es cs) (hk : k ≤ 0xFFF) (hks : ∀ k ∈ ks, k ≤ 0xFFF) :
    ∀ c ∈ cs, c.Within 0xFFF := by
  induction h with
  | nil => exact List.forall_mem_nil _
  | member w v h ih =>
    rw [List.forall_mem_cons] at hks
    rw [List.forall_mem_append]
    refine ⟨?_, ih hks.1 hks.2⟩
    cases v.scalar float with
    | none => simp
    | some x =>
      rw [Option.map_some, Option.toList_some, List.forall_mem_singleton]
      exact hks.1
  | memberIn w c h ih =>
    rw [List.forall_mem_cons] at hks ⊢
    exact ⟨hks.1, ih hks.1 hks.2⟩
  | dropped he h ih => exact ih hk hks
  | written hc h ih =>
    rw [List.forall_mem_cons]
    refine ⟨?_, ih hk hks⟩
    cases hc with
    | keyed hx => exact hk
    | elem hx => trivial
    | opening c => exact hk
    | closing c => trivial

section Writer
variable {h : Bkv} {p : Position} {s : List Kind} {low : Prop}

/-- A call that fits into the innermost container is taken wherever the handle is known to be. -/
theorem Writing.takes (env : Env) (hw : Writing low h s) (hs : Sim h p) {c : Call}
    (hin : c.inRange)
    (hfit : ∀ fr outer, (fr :: outer).map Frame.kind = s →
      (advance (.inside fr outer) c).isSome) :
    ∃ p', p'.calls = p.calls ++ [c] ∧ Sim (exec env h c).2 p' := by
  obtain ⟨fr, outer, hs', hkinds, -⟩ := hw
  have hok : (exec env h c).1 = bkvOk := by
    rw [exec_accepted env hs'.ram hs'.controls, Position.next?, if_pos hin]
    exact hfit fr outer hkinds
  obtain ⟨p', hn⟩ :=
    Option.isSome_iff_exists.mp ((exec_accepted env hs.ram hs.controls c).mp hok)
  have hafter := hs.exec env c
  rw [Position.next, hn] at hafter
  exact ⟨p', advance_calls hs.legal (next?_eq_some.mp hn).2, hafter⟩

/-- Any call is either taken or leaves nothing behind. -/
theorem Sim.tries (env : Env) (hs : Sim h p) (c : Call) :
    ∃ p' cs, (cs = [] ∨ cs = [c]) ∧ p'.calls = p.calls ++ cs ∧ Sim (Wtools.exec env h c).2 p' := by
  rcases exec_refines env hs.ram hs.controls c with ⟨-, -, hh⟩ | ⟨p', hn, hx⟩
  · exact ⟨p, [], .inl rfl, (List.append_nil _).symm, by rwa [hh]⟩
  · obtain ⟨-, ha⟩ := next?_eq_some.mp hn
    refine ⟨p', [c], .inr rfl, advance_calls hs.legal ha, ?_⟩
    rw [hx]
    exact hs.after env ha

end Writer

section Reader
variable {c c' : FromJsonCtx} {ks s : List Kind} {ws : List (List UInt8)} {es : List JsonEvent}

/-- The reader with the direct dictionary, which has never named an older index. -/
structure Counting (c : FromJsonCtx) (ks s : List Kind) (ws : List (List UInt8)) : Prop
    extends Parsing .direct c ks s ws where
  existing : 0 < ws.length → c.existingKeyIndex = bkvNoKey

theorem Counting.index_eq (hc : Counting c ks s ws) (hn : 0 < ws.length) :
    c.index = directKey ws.length := by
  rw [FromJsonCtx.index, hc.existing hn, if_neg (not_not_intro rfl), hc.keyIndex]
  rfl

theorem Counting.name (hc : Counting c ks s ws) {w : List UInt8} {r : Int}
    (h : jsonCallback env float (.mapKey w) c = .ok (r, c')) : c'.existingKeyIndex = bkvNoKey := by
  obtain ⟨d, hd, htaking⟩ := hc.dico
  rw [jsonCallback, bkvJsonMapKeys, hc.keyIndex, index_succ, hd] at h
  obtain ⟨⟨r', fin, d'⟩, hadd, h⟩ := bind_ok h
  obtain ⟨-, hfirst, -⟩ := htaking.add hadd
  have hfin : fin = bkvNoKey := by
    cases htaking
    cases hadd
    rfl
  dsimp only at h
  split at h
  · rename_i hne
    -- a name that is refused is not the first
    have hpos : 0 < ws.length := by
      by_contra hzero
      exact hne (hfirst (by omega)).1
    cases h
    exact hc.existing hpos
  · cases h
    exact hfin

theorem Counting.step (hc : Counting c ks s ws) {e : JsonEvent} {ks' : List Kind} {n' : Nat}
    (hp : place (ks, ws.length) e = some (ks', n')) {r : Int}
    (h : jsonCallback env float e c = .ok (r, c')) :
    r ≠ 0 ∧ n' = (ws ++ e.name?.toList).length ∧
      Counting c' ks' (hold s e) (ws ++ e.name?.toList) := by
  obtain ⟨hr, hn, hparsing⟩ := hc.toParsing.step hp h
  refine ⟨hr, hn, hparsing, ?_⟩
  intro hpos
  cases hname : e.name? with
  | none =>
    rw [hname, Option.toList_none, List.append_nil] at hpos
    rw [(callback_dico hname h).2.2, hc.existing hpos]
  | some w =>
    cases e with
    | mapKey w' => exact hc.name h
    | _ => cases hname

end Reader

section StoredFrom
variable {c c' : FromJsonCtx} {ks s : List Kind} {ws ws' : List (List UInt8)}
  {es es' : List JsonEvent} {h h' h'' : Bkv}

/-- The key in force after `n` names. -/
def keyAfter (n : Nat) : UInt16 := if n = 0 then bkvNoKey else directKey n

theorem keyAfter_pos {n : Nat} (hn : 0 < n) : keyAfter n = directKey n := if_neg (by omega)

/-- From one handle to the other the events, with the names `ws` in them, are stored after `n`
names. -/
def StoredFrom (float : List UInt8 → UInt32) (n : Nat) (ws : List (List UInt8)) (es : List JsonEvent)
    (h h' : Bkv) : Prop :=
  ∀ p, Sim h p → ∃ p' cs, p'.calls = p.calls ++ cs ∧ Sim h' p' ∧
    ∀ ks es' cs', StoredUnder float (keyAfter (n + ws.length)) ks es' cs' →
      StoredUnder float (keyAfter n) ((numbered n ws).map Prod.fst ++ ks) (es ++ es') (cs ++ cs')

theorem StoredFrom.nil (n : Nat) : StoredFrom float n [] [] h h := fun p hs =>
  ⟨p, [], (List.append_nil _).symm, hs, fun _ _ _ hst => hst⟩

theorem StoredFrom.trans {n n' : Nat} (h₁ : StoredFrom float n ws es h h')
    (h₂ : StoredFrom float n' ws' es' h' h'') (hn : n' = n + ws.length) :
    StoredFrom float n (ws ++ ws') (es ++ es') h h'' := by
  subst hn
  intro p hs
  obtain ⟨p', cs, hcalls, hs', hst⟩ := h₁ p hs
  obtain ⟨p'', cs', hcalls', hs'', hst'⟩ := h₂ p' hs'
  refine ⟨p'', cs ++ cs', by rw [hcalls', hcalls, List.append_assoc], hs'', fun ks es'' cs'' hrest => ?_⟩
  rw [List.length_append, ← Nat.add_assoc] at hrest
  rw [numbered_append, List.map_append, List.append_assoc, List.append_assoc, List.append_assoc]
  exact hst _ _ _ (hst' _ _ _ hrest)

/-- An event without a name that may be dropped. -/
theorem StoredFrom.tries (env : Env) {n : Nat} {e : JsonEvent} {call : Call} (he : e.mayDrop)
    (hw : MayWrite float (keyAfter n) e call) :
    StoredFrom float n [] [e] h (exec env h call).2 := by
  intro p hs
  obtain ⟨p', cs, hcs, hcalls, hs'⟩ := hs.tries env call
  refine ⟨p', cs, hcalls, hs', fun ks es' cs' hst => ?_⟩
  rcases hcs with rfl | rfl
  · exact .dropped he hst
  · exact .written hw hst

theorem StoredFrom.drops {n : Nat} {e : JsonEvent} (he : e.mayDrop) : StoredFrom float n [] [e] h h :=
  fun p hs => ⟨p, [], (List.append_nil _).symm, hs, fun _ _ _ hst => .dropped he hst⟩

/-- An event whose call fits into the innermost container. -/
theorem StoredFrom.takes (env : Env) {n : Nat} {low : Prop} (hw : Writing low h s) {e : JsonEvent}
    {call : Call} (hwr : MayWrite float (keyAfter n) e call) (hin : call.inRange)
    (hfit : ∀ fr outer, (fr :: outer).map Frame.kind = s →
      (advance (.inside fr outer) call).isSome) :
    StoredFrom float n [] [e] h (exec env h call).2 := by
  intro p hs
  obtain ⟨p', hcalls, hs'⟩ := hw.takes env hs hin hfit
  exact ⟨p', [call], hcalls, hs', fun _ _ _ hst => .written hwr hst⟩

end StoredFrom

section Contents
variable {c c' : FromJsonCtx} {ks s : List Kind} {ws : List (List UInt8)} {es : List JsonEvent}

theorem Counting.keyAfter_eq (hc : Counting c ks s ws) (hn : 0 < ws.length) :
    c.index = keyAfter ws.length := (hc.index_eq hn).trans (keyAfter_pos hn).symm

/-- A value behind the names. -/
theorem Counting.element (hc : Counting c ks s ws) (hn : 0 < ws.length) (v : Value) {r : Int}
    (h : jsonCallback env float v.event c = .ok (r, c')) :
    StoredFrom float ws.length [] [v.event] c.dataHandle c'.dataHandle := by
  obtain ⟨r', hcall, -⟩ := callback_value env float hc.sim v
  rw [h, Except.ok.injEq, Prod.mk.injEq] at hcall
  obtain ⟨-, rfl⟩ := hcall
  have he : v.event.mayDrop := by cases v <;> rfl
  rw [FromJsonCtx.entry, hc.keyAfter_eq hn]
  split
  · cases hx : v.elem float with
    | none => exact .drops he
    | some x => exact .tries env he (.elem hx)
  · cases hx : v.scalar float with
    | none => exact .drops he
    | some x => exact .tries env he (.keyed hx)

theorem Counting.start (hc : Counting c ks s ws) (hn : 0 < ws.length) (k : Kind) {r : Int}
    (h : jsonCallback env float (startEvent k) c = .ok (r, c')) :
    c'.dataHandle = (exec env c.dataHandle (.opening k (keyAfter ws.length))).2 := by
  have hdeep : 0 < c.deep := by
    rw [hc.deep]
    omega
  rw [← hc.keyAfter_eq hn]
  cases k with
  | map =>
    rw [startEvent, jsonCallback, bkvJsonStartMap, if_pos hdeep, write_eq] at h
    dsimp only at h
    split at h <;> cases h <;> rfl
  | array =>
    rw [startEvent, jsonCallback, bkvJsonStartArray, if_pos hdeep, write_eq] at h
    dsimp only at h
    split at h <;> cases h <;> rfl

theorem Counting.finish {k : Kind} (hc : Counting c (k :: ks) s ws) {r : Int}
    (h : jsonCallback env float (endEvent k) c = .ok (r, c')) :
    c'.dataHandle = (exec env c.dataHandle (.closing k)).2 := by
  obtain ⟨p, hs⟩ := hc.sim
  have hr := (exec_result env hs (.closing k)).2
  have hdeep : 1 < c.deep := by
    rw [hc.deep, List.length_cons]
    omega
  cases k with
  | map =>
    simp [endEvent, jsonCallback, bkvJsonEndMap, hdeep, write_eq, hr] at h
    obtain ⟨-, rfl⟩ := h
    rfl
  | array =>
    simp [endEvent, jsonCallback, bkvJsonEndArray, hdeep, write_eq, hr] at h
    obtain ⟨-, rfl⟩ := h
    rfl

/-- A name that the dictionary takes ends an array that the reader may still be in. -/
theorem Counting.named (hc : Counting c ks s ws) (hlow : ws.length < 4091) {w : List UInt8} {r : Int}
    (h : jsonCallback env float (.mapKey w) c = .ok (r, c')) :
    c'.dataHandle = c.dataHandle ∧ c'.inArray = false := by
  obtain ⟨d, hd, htaking⟩ := hc.dico
  rw [jsonCallback, bkvJsonMapKeys, hc.keyIndex, index_succ, hd] at h
  obtain ⟨⟨r', fin, d'⟩, hadd, h⟩ := bind_ok h
  obtain ⟨-, hfin, -⟩ := htaking.add hadd
  dsimp only at h
  rw [if_neg (not_not_intro (hfin (by omega)).1)] at h
  cases h
  exact ⟨rfl, rfl⟩

theorem Counting.next (hc : Counting c ks s ws) {e : JsonEvent} {ks' : List Kind} {n' : Nat}
    (hp : place (ks, ws.length) e = some (ks', n')) {ok : Bool} {c'' : FromJsonCtx}
    (h : yajlParse env float (e :: es) c = .ok (ok, c'')) :
    ∃ r c', jsonCallback env float e c = .ok (r, c') ∧
      Counting c' ks' (hold s e) (ws ++ e.name?.toList) ∧
      yajlParse env float es c' = .ok (ok, c'') := by
  rw [yajlParse] at h
  obtain ⟨⟨r, c₁⟩, hcall, h⟩ := bind_ok h
  obtain ⟨hr, -, hc₁⟩ := hc.step hp hcall
  dsimp only at h
  rw [if_neg hr] at h
  exact ⟨r, c₁, hcall, hc₁, h⟩

theorem advance_value {k : UInt16} {x : Scalar} (s' : List Kind) (fr : Frame) (outer : List Frame)
    (hkinds : (fr :: outer).map Frame.kind = .map :: s') :
    (advance (.inside fr outer) (.add (.keyed k x))).isSome := by
  rw [List.map_cons, List.cons.injEq] at hkinds
  simp [advance, Entry.kind, hkinds.1]

theorem advance_opening {k : UInt16} {kind : Kind} {s : List Kind}
    (hkind : ∀ s', s = .array :: s' → kind = .map) (fr : Frame) (outer : List Frame)
    (hkinds : (fr :: outer).map Frame.kind = s) :
    (advance (.inside fr outer) (.opening kind k)).isSome := by
  rw [List.map_cons] at hkinds
  cases hfr : fr.kind with
  | map => cases kind <;> simp [advance, hfr, Kind.holds]
  | array =>
    rw [hfr] at hkinds
    simp [advance, hfr, hkind _ hkinds.symm, Kind.holds]

theorem Counting.top (hc : Counting c ks s ws) {outer : List Kind}
    (htop : ks ++ [.map] = .map :: outer) : ∃ s', s = .map :: s' := by
  have hkeeps := hc.keeps
  rw [htop] at hkeeps
  obtain ⟨s', rfl, -⟩ := hkeeps.head
  exact ⟨s', rfl⟩

section Member
variable {outer : List Kind} {w : List UInt8} {r r' : Int} {c₁ c₂ : FromJsonCtx}

theorem keyAfter_succ (w : List UInt8) (ws : List (List UInt8)) :
    keyAfter (ws ++ [w]).length = directKey (ws.length + 1) := by
  rw [List.length_append, List.length_singleton, keyAfter_pos (Nat.succ_pos _)]

/-- A name with its value. -/
theorem Counting.member (hc : Counting c ks s ws) (htop : ks ++ [.map] = .map :: outer)
    (hlow : ws.length < 4091) (h : jsonCallback env float (.mapKey w) c = .ok (r, c₁))
    (hc₁ : Counting c₁ ks s (ws ++ [w])) (v : Value)
    (h' : jsonCallback env float v.event c₁ = .ok (r', c₂)) :
    StoredFrom float ws.length [w] [.mapKey w, v.event] c.dataHandle c₂.dataHandle := by
  obtain ⟨hhandle, harr⟩ := hc.named hlow h
  obtain ⟨r'', hcall, -⟩ := callback_value env float hc₁.sim v
  rw [h', Except.ok.injEq, Prod.mk.injEq] at hcall
  obtain ⟨-, rfl⟩ := hcall
  have hkey := (hc₁.keyAfter_eq (by simp)).trans (keyAfter_succ w ws)
  have hstored : ∀ ks es' cs', StoredUnder float (keyAfter (ws.length + [w].length)) ks es' cs' →
      StoredUnder float (directKey (ws.length + 1)) ks es' cs' := by
    intro ks es' cs' hst
    rwa [List.length_singleton, keyAfter_pos (Nat.succ_pos _)] at hst
  intro p hs
  rw [FromJsonCtx.entry, harr, if_neg Bool.false_ne_true, hkey]
  rw [← hhandle] at hs
  cases hx : v.scalar float with
  | none =>
    refine ⟨p, [], (List.append_nil _).symm, hs, fun ks es' cs' hst => ?_⟩
    have hmember := StoredUnder.member (k := keyAfter ws.length) w v (hstored _ _ _ hst)
    rwa [hx] at hmember
  | some x =>
    obtain ⟨s', rfl⟩ := hc.top htop
    have hin : (Call.add (.keyed (directKey (ws.length + 1)) x)).inRange :=
      decide_eq_true (directKey_le (n := ws.length + 1) (by omega))
    obtain ⟨p', hcalls, hs'⟩ := hc₁.writing.takes env hs hin (advance_value s')
    refine ⟨p', _, hcalls, hs', fun ks es' cs' hst => ?_⟩
    have hmember := StoredUnder.member (k := keyAfter ws.length) w v (hstored _ _ _ hst)
    rwa [hx] at hmember

/-- A name with the beginning of its container. -/
theorem Counting.memberIn (hc : Counting c ks s ws) (htop : ks ++ [.map] = .map :: outer)
    (hlow : ws.length < 4091) (h : jsonCallback env float (.mapKey w) c = .ok (r, c₁))
    (hc₁ : Counting c₁ ks s (ws ++ [w])) (k : Kind)
    (h' : jsonCallback env float (startEvent k) c₁ = .ok (r', c₂)) :
    StoredFrom float ws.length [w] [.mapKey w, startEvent k] c.dataHandle c₂.dataHandle := by
  obtain ⟨hhandle, -⟩ := hc.named hlow h
  have hstart := hc₁.start (by simp) k h'
  rw [keyAfter_succ] at hstart
  intro p hs
  rw [← hhandle] at hs
  obtain ⟨s', rfl⟩ := hc.top htop
  obtain ⟨p', hcalls, hs'⟩ := hc₁.writing.takes env hs (c := .opening k (directKey (ws.length + 1)))
    rfl (advance_opening (by simp))
  rw [← hstart] at hs'
  refine ⟨p', _, hcalls, hs', fun ks es' cs' hst => ?_⟩
  rw [List.length_singleton, keyAfter_pos (Nat.succ_pos _)] at hst
  exact .memberIn w k hst

end Member

/-- The end of a container; the writer may have closed an array before. -/
theorem Counting.ends {k : Kind} (hc : Counting c (k :: ks) s ws) {r : Int}
    (h : jsonCallback env float (endEvent k) c = .ok (r, c')) :
    StoredFrom float ws.length [] [endEvent k] c.dataHandle c'.dataHandle := by
  rw [hc.finish h]
  cases k with
  | array => exact .tries env rfl (.closing .array)
  | map =>
    have hkeeps := hc.keeps
    rw [List.cons_append] at hkeeps
    obtain ⟨s', rfl, hrest⟩ := hkeeps.head
    refine .takes env hc.writing (.closing .map) rfl fun fr outer hkinds => ?_
    rw [List.map_cons, List.cons.injEq] at hkinds
    obtain ⟨hfr, rfl⟩ := hkinds
    cases outer with
    | nil => exact absurd hrest (keeps_nil (by simp))
    | cons o outer => simp [advance, hfr]

/-- The beginning of a container in an array; the writer refuses an array there. -/
theorem Counting.begins (hc : Counting c ks s ws) (hn : 0 < ws.length) (k : Kind) {r : Int}
    (h : jsonCallback env float (startEvent k) c = .ok (r, c')) :
    StoredFrom float ws.length [] [startEvent k] c.dataHandle c'.dataHandle := by
  rw [hc.start hn k h]
  cases k with
  | array => exact .tries env rfl (.opening .array)
  | map => exact .takes env hc.writing (.opening .map) rfl (advance_opening fun _ _ => rfl)

@[simp] theorem mapKey_names (w : List UInt8) : (JsonEvent.mapKey w).name?.toList = [w] := rfl

@[simp] theorem value_names (v : Value) : v.event.name?.toList = [] := by cases v <;> rfl

@[simp] theorem start_names (k : Kind) : (startEvent k).name?.toList = [] := by cases k <;> rfl

@[simp] theorem end_names (k : Kind) : (endEvent k).name?.toList = [] := by cases k <;> rfl

/-- The contents of a container. -/
theorem Counting.contents {k : Kind} (j : Json k) {outer : List Kind} (hc : Counting c ks s ws)
    (htop : ks ++ [.map] = k :: outer) (hn : k = .array → 0 < ws.length)
    (hlow : ws.length + j.names.length ≤ 4091) {ok : Bool} {c'' : FromJsonCtx}
    (h : yajlParse env float (j.events ++ es) c = .ok (ok, c'')) :
    ∃ c' s', Counting c' ks s' (ws ++ j.names) ∧
      StoredFrom float ws.length j.names j.events c.dataHandle c'.dataHandle ∧
      yajlParse env float es c' = .ok (ok, c'') := by
  induction j generalizing c ks s ws es outer with
  | nil => exact ⟨c, s, by simpa [Json.names] using hc, .nil _, h⟩
  | member name v rest ih =>
    rw [Json.names, List.length_cons] at hlow
    obtain ⟨r₁, c₁, hcall₁, hc₁, h⟩ := hc.next (place_name ..) h
    rw [hold_name, mapKey_names] at hc₁
    obtain ⟨r₂, c₂, hcall₂, hc₂, h⟩ := hc₁.next (place_value ..) h
    rw [hold_value, value_names, List.append_nil] at hc₂
    obtain ⟨c', s', hc', hleads, h⟩ := ih hc₂ htop (by simp) (by simp; omega) h
    rw [List.length_append] at hleads
    refine ⟨c', s', by simpa [Json.names] using hc', ?_, h⟩
    exact (hc.member htop (by omega) hcall₁ hc₁ v hcall₂).trans hleads rfl
  | memberIn name k body rest ihb ih =>
    rw [Json.names, List.length_cons, List.length_append] at hlow
    rw [Json.events, List.cons_append, List.cons_append, List.append_assoc, List.cons_append] at h
    obtain ⟨r₁, c₁, hcall₁, hc₁, h⟩ := hc.next (place_name ..) h
    rw [hold_name, mapKey_names] at hc₁
    obtain ⟨r₂, c₂, hcall₂, hc₂, h⟩ := hc₁.next (place_start (by simp) k) h
    rw [start_names, List.append_nil] at hc₂
    obtain ⟨c₃, s₃, hc₃, hbody, h⟩ := ihb hc₂ (List.cons_append ..) (by simp) (by simp; omega) h
    obtain ⟨r₄, c₄, hcall₄, hc₄, h⟩ := hc₃.next (place_end ..) h
    rw [end_names, List.append_nil] at hc₄
    obtain ⟨c', s', hc', hrest, h⟩ := ih hc₄ htop (by simp) (by simp; omega) h
    refine ⟨c', s', by simpa [Json.names] using hc', ?_, h⟩
    have hopen := hc.memberIn htop (by omega) hcall₁ hc₁ k hcall₂
    have hleads := ((hopen.trans hbody (by simp)).trans (hc₃.ends hcall₄) (by simp)).trans hrest
      (by simp)
    simpa [Json.names, Json.events] using hleads
  | element v rest ih =>
    have hpos := hn rfl
    obtain ⟨r₁, c₁, hcall₁, hc₁, h⟩ := hc.next (place_value ..) h
    rw [hold_value, value_names, List.append_nil] at hc₁
    obtain ⟨c', s', hc', hleads, h⟩ := ih hc₁ htop hn hlow h
    exact ⟨c', s', hc', (hc.element hpos v hcall₁).trans hleads rfl, h⟩
  | elementIn k body rest ihb ih =>
    have hpos := hn rfl
    rw [Json.names, List.length_append] at hlow
    rw [Json.events, List.cons_append, List.append_assoc, List.cons_append] at h
    obtain ⟨r₂, c₂, hcall₂, hc₂, h⟩ := hc.next (place_start hpos k) h
    rw [start_names, List.append_nil] at hc₂
    obtain ⟨c₃, s₃, hc₃, hbody, h⟩ :=
      ihb hc₂ (List.cons_append ..) (fun _ => hpos) (by omega) h
    obtain ⟨r₄, c₄, hcall₄, hc₄, h⟩ := hc₃.next (place_end ..) h
    rw [end_names, List.append_nil] at hc₄
    obtain ⟨c', s', hc', hrest, h⟩ := ih hc₄ htop (by simp; omega) (by simp; omega) h
    refine ⟨c', s', by simpa [Json.names] using hc', ?_, h⟩
    have hopen := hc.begins hpos k hcall₂
    have hleads := ((hopen.trans hbody rfl).trans (hc₃.ends hcall₄) (by simp)).trans hrest (by simp)
    simpa [Json.names, Json.events] using hleads

/-- The records of a whole text, while the root is still open. -/
theorem text_stored (hcr : Creates env) {d₀ : Dico} (hd : DicoTaking [] .direct d₀) {j : Json .map}
    (hlow : j.names.length ≤ 4091) {ok : Bool}
    (h : yajlParse env float j.text (startCtx env d₀) = .ok (ok, c)) :
    ∃ data, Sim c.dataHandle (.inside ⟨.map, bkvNoKey, data⟩ []) ∧
      StoredUnder float bkvNoKey ((numbered 0 j.names).map Prod.fst) j.events (calls data) := by
  obtain ⟨h₀, hx, hs⟩ := (hcr.fresh_sim 0).accept env (c := .opening .map bkvNoKey) rfl
  rw [Json.text, yajlParse] at h
  obtain ⟨⟨r, c₁⟩, hcall, h⟩ := bind_ok h
  obtain ⟨hr, hparsing⟩ := Parsing.begin hcr hd hcall
  have hhandle : c₁.dataHandle = h₀ := by
    simp [jsonCallback, bkvJsonStartMap, startCtx, write_eq, hx, bkvOk] at hcall
    rw [← hcall.2]
  dsimp only at h
  rw [if_neg hr] at h
  have hcounting : Counting c₁ [] [.map] [] := ⟨hparsing, by simp⟩
  obtain ⟨c₂, s, hc₂, hleads, h⟩ := hcounting.contents j rfl (by simp) (by simpa using hlow) h
  obtain ⟨p, cs, hcalls, hs₂, hstored⟩ := hleads _ (hhandle ▸ hs)
  have hlast : c.dataHandle = c₂.dataHandle := by
    obtain ⟨d, hdico, -⟩ := hc₂.dico
    have hdeep : c₂.deep - 1 = 0 := by
      rw [hc₂.deep]
      rfl
    have hend : jsonCallback env float .endMap c₂ = .ok (-1, { c₂ with deep := 0 }) := by
      simp [jsonCallback, bkvJsonEndMap, hdeep, hdico]
    rw [yajlParse_cons hend (by decide)] at h
    cases h
    rfl
  have hroot : p.frames.length = 1 := by
    obtain ⟨fr, outer, hs', hkinds, -⟩ := hc₂.writing
    have hlen := congrArg List.length hkinds
    rw [List.length_map, keeps_root hc₂.keeps] at hlen
    have hdeep := hs'.deepOffset
    have hdeep' := hs₂.deepOffset
    simp only [Position.frames, List.length_singleton] at hdeep hlen
    omega
  cases p with
  | start => cases hroot
  | complete key body => cases hroot
  | inside fr outer =>
    have houter : outer = [] := List.eq_nil_of_length_eq_zero (by simpa [Position.frames] using hroot)
    subst houter
    obtain ⟨kind, key, data⟩ := fr
    simp only [Position.calls, Frame.calls, List.reverse_singleton, List.flatMap_cons,
      List.flatMap_nil, List.append_nil, calls_nil, List.cons_append, List.nil_append,
      List.cons.injEq, Call.opening.injEq] at hcalls
    obtain ⟨⟨rfl, rfl⟩, rfl⟩ := hcalls
    refine ⟨data, hlast ▸ hs₂, ?_⟩
    simpa [keyAfter] using hstored [] [] [] .nil

end Contents

end Wtools
