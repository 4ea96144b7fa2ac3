import Wtools.JsonTree
import Wtools.Layout

/-!
# Parsing into records

The callbacks of the parser as moves of the position of the data handle. Between two
events of a text the reader is `Reading`: its data handle has written a position, its
depth is that of the position, and the key in force is that of the last name.
-/

namespace Wtools
open ByteMemory Forest

variable {env : Env} {float : List UInt8 → UInt32} {key : Nat → UInt16}

/-- A run of names through a dictionary: after `n` names the index is `n + 1` and the key in
force is `key n`. -/
inductive Named (env : Env) (key : Nat → UInt16) : Nat → Dico → List (List UInt8) → Dico → Prop
  | nil (n : Nat) (d : Dico) : Named env key n d [] d
  | cons {n : Nat} {d d' d'' : Dico} {w : List UInt8} {ws : List (List UInt8)} {fin : UInt16}
      (hadd : bkvDicoKeyAdd env (some d) (.ofNat (n + 2)) w = .ok (bkvOk, fin, some d'))
      (hkey : key (n + 1) = if fin ≠ bkvNoKey then fin else .ofNat (n + 2))
      (hrest : Named env key (n + 1) d' ws d'') : Named env key n d (w :: ws) d''

theorem Named.append {n : Nat} {d d' : Dico} {ws ws' : List (List UInt8)}
    (h : Named env key n d (ws ++ ws') d') :
    ∃ d₁, Named env key n d ws d₁ ∧ Named env key (n + ws.length) d₁ ws' d' := by
  induction ws generalizing n d with
  | nil => exact ⟨d, .nil n d, h⟩
  | cons w ws ih =>
    cases h with
    | cons hadd hkey hrest =>
      obtain ⟨d₁, h₁, h₂⟩ := ih hrest
      refine ⟨d₁, .cons hadd hkey h₁, ?_⟩
      rwa [List.length_cons, ← Nat.add_assoc, Nat.add_right_comm]

structure Reading (key : Nat → UInt16) (c : FromJsonCtx) (fr : Frame) (outer : List Frame) (n : Nat)
    (d : Dico) : Prop where
  sim : Sim c.dataHandle (.inside fr outer)
  deep : c.deep = outer.length + 1
  dico : c.dicoHandle = some d
  keyIndex : c.keyIndex = .ofNat (n + 1)
  index : 0 < n → c.index = key n

/-- Refused calls of the writer give neither of the results the callbacks look for. -/
theorem exec_result (env : Env) {h : Bkv} {p : Position} (hs : Sim h p) (c : Call) :
    (exec env h c).1 ≠ 0 ∧ (exec env h c).1 ≠ -1 := by
  rw [exec_eq env hs.ram]
  split
  · simp [bkvKeyOutOfRange]
  · split <;> simp [bkvHdlInv, bkvOk]

theorem write_eq (c : FromJsonCtx) (call : Call) :
    c.write env call =
      ((exec env c.dataHandle call).1, { c with dataHandle := (exec env c.dataHandle call).2 }) := rfl

variable {c : FromJsonCtx} {fr : Frame} {outer : List Frame} {n : Nat} {d : Dico}

theorem Reading.write (hc : Reading key c fr outer n d) {call : Call} {f : Items}
    (hm : (Position.inside fr outer).next call = .inside (fr.put f) outer) :
    Reading key (c.write env call).2 (fr.put f) outer n d := by
  have hs := hc.sim.exec env call
  rw [hm] at hs
  exact ⟨hs, hc.deep, hc.dico, hc.keyIndex, hc.index⟩

theorem Reading.skip (hc : Reading key c fr outer n d) : Reading key c (fr.put .nil) outer n d := by
  have hput : fr.put .nil = fr := by simp [Frame.put]
  rwa [hput]

theorem next_add {fr : Frame} {outer : List Frame} {e : Entry} (he : e.kind = fr.kind)
    (hr : (Call.add e).inRange) :
    (Position.inside fr outer).next (.add e) = .inside (fr.put (.leaf e .nil)) outer := by
  simp [Position.next, Position.next?, hr, advance, he]

theorem next_refused {fr : Frame} {outer : List Frame} {e : Entry} (he : e.kind ≠ fr.kind) :
    (Position.inside fr outer).next (.add e) = .inside (fr.put .nil) outer := by
  have hput : fr.put .nil = fr := by simp [Frame.put]
  simp [Position.next, Position.next?, advance, he, hput]

/-- The record that the callback of a value tries to write. -/
def FromJsonCtx.entry (float : List UInt8 → UInt32) (c : FromJsonCtx) (v : Value) : Option Entry :=
  if c.inArray then (v.elem float).map .elem else (v.scalar float).map (.keyed c.index)

section
variable (env float)

theorem callback_value (hs : ∃ p, Sim c.dataHandle p) (v : Value) :
    ∃ r, jsonCallback env float v.event c =
        .ok (r, (c.entry float v).elim c fun e => (c.write env (.add e)).2) ∧ r ≠ 0 := by
  obtain ⟨p, hs⟩ := hs
  have hr := fun e => (exec_result env hs (.add e)).1
  cases v with
  | null => exact ⟨1, by cases hi : c.inArray <;> simp [Value.event, jsonCallback,
      FromJsonCtx.entry, Value.elem, Value.scalar, hi], by decide⟩
  | boolean v =>
    cases hi : c.inArray with
    | true => exact ⟨_, by simp [Value.event, jsonCallback, bkvJsonGetBoolean, FromJsonCtx.entry, hi,
        Value.elem, write_eq]; rfl, hr _⟩
    | false => exact ⟨_, by simp [Value.event, jsonCallback, bkvJsonGetBoolean, FromJsonCtx.entry, hi,
        Value.scalar, write_eq]; rfl, hr _⟩
  | string s =>
    refine ⟨1, ?_, by decide⟩
    cases hi : c.inArray <;>
      simp [Value.event, jsonCallback, bkvJsonGetString, FromJsonCtx.entry, hi, Value.elem,
        Value.scalar]
  | number text =>
    refine ⟨1, ?_, by decide⟩
    cases hi : c.inArray <;> cases hn : getNumberJson float text <;>
      simp [Value.event, jsonCallback, bkvJsonGetNumber, FromJsonCtx.entry, hi, hn, Value.elem,
        Value.scalar]

theorem Reading.value (hc : Reading key c fr outer n d) (v : Value)
    (hkey : fr.kind = .map → c.index ≤ 0xFFF) :
    ∃ r c', jsonCallback env float v.event c = .ok (r, c') ∧ r ≠ 0 ∧ c'.inArray = c.inArray ∧
      Reading key c' (fr.put (leafOf ((c.entry float v).filter fun e => e.kind = fr.kind)))
        outer n d := by
  obtain ⟨r, hcall, hr⟩ := callback_value env float ⟨_, hc.sim⟩ v
  refine ⟨r, _, hcall, hr, ?_⟩
  cases he : c.entry float v with
  | none => exact ⟨rfl, hc.skip⟩
  | some e =>
    refine ⟨rfl, ?_⟩
    by_cases hk : e.kind = fr.kind
    · have hin : (Call.add e).inRange := by
        cases e with
        | elem v => rfl
        | keyed k v =>
          have hk' : k = c.index := by
            unfold FromJsonCtx.entry at he
            split at he <;> simp at he
            exact he.2.symm
          simp [Call.inRange, hk', hkey hk.symm]
      rw [Option.filter_some_pos (by simpa using hk)]
      exact hc.write (next_add hk hin)
    · rw [Option.filter_some_neg (by simpa using hk)]
      exact hc.write (next_refused hk)

theorem index_succ (n : Nat) : UInt16.ofNat (n + 1) + 1 = .ofNat (n + 2) := by
  rw [UInt16.ofNat_add, UInt16.ofNat_add (b := 2), UInt16.add_assoc]
  rfl

theorem Reading.name (hc : Reading key c fr outer n d) {w : List UInt8} {fin : UInt16} {d' : Dico}
    (hadd : bkvDicoKeyAdd env (some d) (.ofNat (n + 2)) w = .ok (bkvOk, fin, some d'))
    (hkey : key (n + 1) = if fin ≠ bkvNoKey then fin else .ofNat (n + 2)) :
    ∃ c', jsonCallback env float (.mapKey w) c = .ok (bkvOk, c') ∧ c'.inArray = false ∧
      Reading key c' fr outer (n + 1) d' := by
  refine ⟨{ c with
    keyIndex := .ofNat (n + 2)
    dicoHandle := some d'
    existingKeyIndex := fin
    inArray := false }, ?_, rfl, hc.sim, hc.deep, rfl, rfl, fun _ => ?_⟩
  · simp only [jsonCallback, bkvJsonMapKeys, hc.keyIndex, index_succ, hc.dico, hadd, bind, Except.bind]
    rfl
  · rw [hkey, FromJsonCtx.index]

theorem Reading.start (hc : Reading key c fr outer n d) {k : Kind} (hk : fr.kind.holds k)
    (hn : 0 < n) :
    ∃ c', jsonCallback env float (startEvent k) c = .ok (1, c') ∧
      c'.inArray = (c.inArray || k = .array) ∧
      Reading key c' ⟨k, key n, .nil⟩ (fr :: outer) n d := by
  have hdeep : 0 < c.deep := by
    rw [hc.deep]
    omega
  have hs := hc.sim.exec env (.opening k (key n))
  have hm : (Position.inside fr outer).next (.opening k (key n)) =
      .inside ⟨k, key n, .nil⟩ (fr :: outer) := by
    simp [Position.next, Position.next?, Call.inRange, advance, hk]
  rw [hm] at hs
  have hr := (exec_result env hc.sim (.opening k (key n))).2
  have hd : c.deep + 1 = ((fr :: outer).length : Int) + 1 := by
    rw [hc.deep, List.length_cons]
    omega
  cases k with
  | map =>
    refine ⟨{ (c.write env (.opening .map (key n))).2 with deep := c.deep + 1 }, ?_,
      by simp [write_eq], hs, hd, hc.dico, hc.keyIndex, hc.index⟩
    simp [startEvent, jsonCallback, bkvJsonStartMap, hdeep, hc.index hn, write_eq, hr]
  | array =>
    refine ⟨{ (c.write env (.opening .array (key n))).2 with inArray := true, deep := c.deep + 1 },
      ?_, by simp, hs, hd, hc.dico, hc.keyIndex, hc.index⟩
    simp [startEvent, jsonCallback, bkvJsonStartArray, hdeep, hc.index hn, write_eq, hr]

theorem Reading.finish {o : Frame} (hc : Reading key c fr (o :: outer) n d) :
    ∃ c', jsonCallback env float (endEvent fr.kind) c = .ok (1, c') ∧
      c'.inArray = (c.inArray && fr.kind = .map) ∧ Reading key c' (o.put fr.closed) outer n d := by
  have hdeep : c.deep - 1 = outer.length + 1 := by
    rw [hc.deep, List.length_cons]
    omega
  have hpos : 1 < c.deep := by omega
  have hs := hc.sim.exec env (.closing fr.kind)
  have hm : (Position.inside fr (o :: outer)).next (.closing fr.kind) =
      .inside (o.put fr.closed) outer := by
    simp [Position.next, Position.next?, Call.inRange, advance]
  rw [hm] at hs
  have hr := (exec_result env hc.sim (.closing fr.kind)).2
  cases hk : fr.kind with
  | map =>
    rw [hk] at hs hr
    refine ⟨{ (c.write env (.closing .map)).2 with deep := c.deep - 1 }, ?_, by simp [write_eq],
      hs, hdeep, hc.dico, hc.keyIndex, hc.index⟩
    simp [endEvent, jsonCallback, bkvJsonEndMap, hpos, write_eq, hr]
  | array =>
    rw [hk] at hs hr
    refine ⟨{ (c.write env (.closing .array)).2 with deep := c.deep - 1, inArray := false }, ?_,
      by simp, hs, hdeep, hc.dico, hc.keyIndex, hc.index⟩
    simp [endEvent, jsonCallback, bkvJsonEndArray, hpos, write_eq, hr]

end

theorem yajlParse_cons {e : JsonEvent} {r : Int} {c' : FromJsonCtx}
    (h : jsonCallback env float e c = .ok (r, c')) (hr : r ≠ 0) (es : List JsonEvent) :
    yajlParse env float (e :: es) c = yajlParse env float es c' := by
  simp [yajlParse, h, hr, bind, Except.bind]

/-- No array directly in an array. -/
def Json.Flat {k : Kind} (j : Json k) : Prop := j.Forall (fun _ => True) fun k c => k.holds c

/-- What the parser does with the contents of a container, whatever follows them. -/
def Parses (env : Env) (float : List UInt8 → UInt32) (key : Nat → UInt16) {k : Kind} (j : Json k) :
    Prop :=
  ∀ {c : FromJsonCtx} {fr : Frame} {outer : List Frame} {n : Nat} {d d' : Dico},
    Reading key c fr outer n d → fr.kind = k → Named env key n d j.names d' → (k = .array → 0 < n) →
    (∀ i, i ≤ n + j.names.length → key i ≤ 0xFFF) → ∀ es : List JsonEvent,
    ∃ c', yajlParse env float (j.events ++ es) c = yajlParse env float es c' ∧
      c'.inArray = j.flagAfter c.inArray ∧
      Reading key c' (fr.put (j.stored float key n c.inArray)) outer (n + j.names.length) d'

/-- A container is opened, filled and closed. -/
theorem Reading.container {k' : Kind} {body : Json k'} (hc : Reading key c fr outer n d)
    (ihb : Parses env float key body) (hholds : fr.kind.holds k') (hn : 0 < n) {d' : Dico}
    (hd : Named env key n d body.names d')
    (hkeys : ∀ i, i ≤ n + body.names.length → key i ≤ 0xFFF) (es : List JsonEvent) :
    ∃ c', yajlParse env float (startEvent k' :: (body.events ++ endEvent k' :: es)) c =
        yajlParse env float es c' ∧
      c'.inArray = (body.flagAfter (c.inArray || k' = .array) && k' = .map) ∧
      Reading key c' (fr.put (.node (k', key n)
        (body.stored float key n (c.inArray || k' = .array)) .nil)) outer
        (n + body.names.length) d' := by
  obtain ⟨c₁, hp₁, ha₁, hc₁⟩ := hc.start env float hholds hn
  obtain ⟨c₂, hp₂, ha₂, hc₂⟩ := ihb hc₁ rfl hd (fun _ => hn) hkeys (endEvent k' :: es)
  obtain ⟨c₃, hp₃, ha₃, hc₃⟩ := hc₂.finish env float
  rw [ha₁] at ha₂ hc₂ hc₃
  rw [ha₂] at ha₃
  refine ⟨c₃, ?_, ha₃, hc₃⟩
  rw [yajlParse_cons hp₁ (by decide), hp₂]
  exact yajlParse_cons hp₃ (by decide) es

theorem Parses.member {name : List UInt8} {v : Value} {rest : Json .map}
    (ih : Parses env float key rest) : Parses env float key (.member name v rest) := by
  intro c fr outer n d d' hc hk hd hn hkeys es
  cases hd with
  | cons hadd hkey hrest =>
    obtain ⟨c₁, hp₁, ha₁, hc₁⟩ := hc.name env float hadd hkey
    obtain ⟨r, c₂, hp₂, hr, ha₂, hc₂⟩ := hc₁.value env float v fun _ => by
      rw [hc₁.index (by omega)]
      exact hkeys _ (by simp only [Json.names, List.length_cons]; omega)
    obtain ⟨c₃, hp₃, ha₃, hc₃⟩ := ih hc₂ hk hrest (by simp)
      (fun i hi => hkeys i (by simp only [Json.names, List.length_cons]; omega)) es
    refine ⟨c₃, ?_, ?_, ?_⟩
    · rw [← hp₃]
      simp only [Json.events, List.cons_append]
      rw [yajlParse_cons hp₁ (by decide), yajlParse_cons hp₂ hr]
    · rw [ha₃, ha₂, ha₁]
      rfl
    · rw [Frame.put_put, ha₂, ha₁] at hc₃
      have hentry : (c₁.entry float v).filter (fun e => e.kind = fr.kind) =
          (v.scalar float).map (.keyed (key (n + 1))) := by
        rw [FromJsonCtx.entry, ha₁, hc₁.index (by omega), hk]
        cases v.scalar float <;> rfl
      rw [hentry] at hc₃
      simpa only [Json.stored, Json.names, List.length_cons, Nat.add_assoc,
        Nat.add_comm 1] using hc₃

theorem Parses.memberIn {name : List UInt8} {k' : Kind} {body : Json k'} {rest : Json .map}
    (hholds : Kind.map.holds k') (ihb : Parses env float key body)
    (ih : Parses env float key rest) :
    Parses env float key (.memberIn name k' body rest) := by
  intro c fr outer n d d' hc hk hd hn hkeys es
  cases hd with
  | cons hadd hkey hrest =>
    obtain ⟨d₁, hbody, hrest⟩ := hrest.append
    have hlen : (Json.memberIn name k' body rest).names.length =
        1 + body.names.length + rest.names.length := by
      simp only [Json.names, List.length_cons, List.length_append]
      omega
    obtain ⟨c₁, hp₁, ha₁, hc₁⟩ := hc.name env float hadd hkey
    obtain ⟨c₂, hp₂, ha₂, hc₂⟩ := hc₁.container ihb (hk ▸ hholds) (by omega) hbody
      (fun i hi => hkeys i (by omega)) (rest.events ++ es)
    have hflag : c₂.inArray = false := by
      rw [ha₂, ha₁]
      cases k' with
      | map => simp [flagAfter_map]
      | array => simp
    obtain ⟨c₃, hp₃, ha₃, hc₃⟩ := ih hc₂ hk hrest (by simp) (fun i hi => hkeys i (by omega)) es
    refine ⟨c₃, ?_, ?_, ?_⟩
    · rw [← hp₃, ← hp₂]
      simp only [Json.events, List.cons_append, List.append_assoc]
      exact yajlParse_cons hp₁ (by decide) _
    · rw [ha₃, hflag]
      rfl
    · rw [hflag, ha₁, Bool.false_or, Frame.put_put] at hc₃
      rw [hlen, ← Nat.add_assoc, ← Nat.add_assoc]
      exact hc₃

theorem Parses.element {v : Value} {rest : Json .array} (ih : Parses env float key rest) :
    Parses env float key (.element v rest) := by
  intro c fr outer n d d' hc hk hd hn hkeys es
  obtain ⟨r, c₁, hp₁, hr, ha₁, hc₁⟩ := hc.value env float v (by simp [hk])
  obtain ⟨c₂, hp₂, ha₂, hc₂⟩ := ih hc₁ hk hd hn hkeys es
  refine ⟨c₂, ?_, ?_, ?_⟩
  · rw [← hp₂, ← yajlParse_cons hp₁ hr]
    rfl
  · rw [ha₂, ha₁]
    rfl
  · rw [Frame.put_put, ha₁] at hc₂
    have hentry : (c.entry float v).filter (fun e => e.kind = fr.kind) =
        if c.inArray then (v.elem float).map .elem else none := by
      rw [FromJsonCtx.entry, hk]
      split
      · cases v.elem float <;> rfl
      · cases v.scalar float <;> rfl
    rw [hentry] at hc₂
    exact hc₂

theorem Parses.elementIn {k' : Kind} {body : Json k'} {rest : Json .array}
    (hholds : Kind.array.holds k') (ihb : Parses env float key body)
    (ih : Parses env float key rest) :
    Parses env float key (.elementIn k' body rest) := by
  intro c fr outer n d d' hc hk hd hn hkeys es
  obtain ⟨d₁, hbody, hrest⟩ := Named.append hd
  cases k' with
  | array => cases hholds
  | map =>
    have hlen : (Json.elementIn .map body rest).names.length =
        body.names.length + rest.names.length := by
      simp only [Json.names, List.length_append]
    obtain ⟨c₁, hp₁, ha₁, hc₁⟩ := hc.container ihb (hk ▸ hholds) (hn rfl) hbody
      (fun i hi => hkeys i (by omega)) (rest.events ++ es)
    have hmap : (c.inArray || decide (Kind.map = .array)) = c.inArray := by simp
    rw [hmap] at ha₁ hc₁
    have hflag : c₁.inArray = (c.inArray && body.isEmpty) := by
      rw [ha₁, flagAfter_map]
      simp
    obtain ⟨c₂, hp₂, ha₂, hc₂⟩ := ih hc₁ hk hrest (fun _ => Nat.add_pos_left (hn rfl) _)
      (fun i hi => hkeys i (by omega)) es
    refine ⟨c₂, ?_, ?_, ?_⟩
    · rw [← hp₂, ← hp₁]
      simp only [Json.events, List.cons_append, List.append_assoc]
    · rw [ha₂, hflag]
      rfl
    · rw [hflag, Frame.put_put] at hc₂
      rw [hlen, ← Nat.add_assoc]
      exact hc₂

/-- The contents of a container leave their records in the innermost one of the handle. -/
theorem parse_contents (float : List UInt8 → UInt32) {k : Kind} (j : Json k) (hj : j.Flat) :
    Parses env float key j := by
  induction j with
  | nil =>
    intro c fr outer n d d' hc hk hd hn hkeys es
    cases hd
    exact ⟨c, rfl, rfl, hc.skip⟩
  | member name v rest ih => exact Parses.member (ih hj.2)
  | memberIn name k' body rest ihb ih => exact Parses.memberIn hj.1 (ihb hj.2.1) (ih hj.2.2)
  | element v rest ih => exact Parses.element (ih hj.2)
  | elementIn k' body rest ihb ih => exact Parses.elementIn hj.1 (ihb hj.2.1) (ih hj.2.2)

end Wtools
