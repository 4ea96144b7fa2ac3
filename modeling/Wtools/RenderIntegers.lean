import Wtools.RenderArrays

/-!
# Integers

The callbacks of the integers return a local that is set only when they fail. Whatever it holds
stops the loop or lets it go on. The callback of a `u64` looks for a name also in an array, and
its value goes through a signed type.
-/

namespace Wtools
open ByteMemory Forest

/-- The integer that a record has. -/
def Scalar.integer? : Scalar → Option Int
  | .u16 v => some v.toNat
  | .u32 v => some v.toNat
  | .u64 v => some v.toNat
  | _ => none

/-- The integer that the generator is given. -/
def Scalar.signed? : Scalar → Option Int
  | .u64 v => some v.toBitVec.toInt
  | v => v.integer?

/-- The calls for an integer; only the callback of a `u16` knows arrays. -/
def Entry.integerTokens? (names : Names) : Entry → Option (List GenCall)
  | .elem (.u16 v) => some [.integer v.toNat]
  | e => do return [.string (← names e.key), .integer (← e.scalar.signed?)]

/-- As `renderCall` for containers; `stop` tells whether the loop stops after an integer. -/
def renderInteger (stop : Bool) (accept : Accept) (names : Names) : Renderer
  | .add e, g =>
    match e.integerTokens? names with
    | none => (true, g)
    | some ts => (!(g.calls accept ts).1 || stop, (g.calls accept ts).2)
  | c, g => renderCall accept names c g

theorem renderInteger_opening (stop : Bool) (accept : Accept) (names : Names) (k : Kind)
    (key : UInt16) (g : Gen) : renderInteger stop accept names (.opening k key) g =
      renderCall accept names (.opening k key) g := rfl

/-- Whether a result of a callback stops the loop. -/
def stops (l_ret : UInt32) : Bool := l_ret &&& actionStopLoop ≠ 0

/-- The records that this rendering is about. -/
def Call.Numeric : Call → Prop
  | .opening _ key => key ≤ 0xFFC
  | .closing _ => True
  | .add (.keyed key v) => key ≤ 0xFFC ∧ v.integer?.isSome
  | .add (.elem v) => v.scalar.integer?.isSome

theorem numeric_within {c : Call} (h : c.Numeric) : c.Within 0xFFC := by
  rcases c with ⟨k, key⟩ | k | ⟨key, v⟩ | v
  · exact h
  · trivial
  · exact h.1
  · trivial

section Callbacks
variable {accept : Accept} {names : Names} {env : Env} {z : Zone} {dv : BkvVal}

theorem visit_uninit {e : Event} {c : ToJsonCtx} {r : Bool × Gen} (he : e.isMapOpen = false)
    (hcb : toJsonCallbacks env z accept e c =
      .ok (stopUnless env.uninitRet c (okOr bkvInvArg r))) :
    visit (toJsonCallbacks env z accept) e c =
      .ok (⟨false, !r.1 || stops env.uninitRet⟩, { c with gen := r.2 }) := by
  have hstop : stops actionStopLoop = true := by decide
  rw [visit, hcb]
  obtain ⟨ok, g⟩ := r
  cases ok with
  | true => simp [Except.map, stopUnless, okOr, skips, he, stops]
  | false =>
    have hfail : bkvInvArg ≠ bkvOk := invArg_ne
    simpa [Except.map, stopUnless, okOr, skips, he, stops, hfail] using hstop

theorem visit_named (hd : Knows z dv names) {key : UInt16} {v : Int} {e : Event} {g : Gen}
    (he : e.isMapOpen = false)
    (hcb : toJsonCallbacks env z accept e ⟨false, dv, g⟩ = namedMember z env.uninitRet key
      (fun str => yajlMember accept str (.integer v)) ⟨false, dv, g⟩) {en : Entry}
    (htokens : en.integerTokens? names = do return [.string (← names key), .integer v]) :
    visit (toJsonCallbacks env z accept) e ⟨false, dv, g⟩ =
      .ok (⟨false, (renderInteger (stops env.uninitRet) accept names (.add en) g).1⟩,
        ⟨false, dv, (renderInteger (stops env.uninitRet) accept names (.add en) g).2⟩) := by
  rw [namedMember, hd false g key] at hcb
  rw [renderInteger, htokens]
  cases hn : names key with
  | none =>
    rw [hn] at hcb
    exact visit_stop hcb
  | some s =>
    rw [hn] at hcb
    exact visit_uninit he hcb

theorem visit_integer (hd : Knows z dv names) {off : Nat} {deep : Int} {e : Entry}
    (he : (Call.add e).Numeric) (g : Gen) :
    visit (toJsonCallbacks env z accept) (scalarEvent off deep e.key e.scalar) ⟨false, dv, g⟩ =
      .ok (⟨false, (renderInteger (stops env.uninitRet) accept names (.add e) g).1⟩,
        ⟨false, dv, (renderInteger (stops env.uninitRet) accept names (.add e) g).2⟩) := by
  have harr : ∀ key : UInt16, key ≤ 0xFFC → key ≠ bkvArrayKey := by
    rintro key hk rfl
    exact absurd hk (by simp [bkvArrayKey])
  rcases e with ⟨key, v⟩ | v
  · obtain ⟨hkey, hv⟩ := he
    cases v with
    | u16 v =>
      refine visit_named hd rfl ?_ rfl
      simp only [Entry.key, Entry.scalar, scalarEvent, toJsonCallbacks, bkvToJsonUint16,
        if_neg (harr key hkey)]
      rfl
    | u32 v => exact visit_named hd rfl rfl rfl
    | u64 v => exact visit_named hd rfl rfl rfl
    | _ => cases hv
  · cases v with
    | u16 v =>
      rw [renderInteger, Entry.integerTokens?]
      apply visit_uninit rfl
      rw [calls_singleton]
      simp only [Entry.key, Entry.scalar, Elem.scalar, scalarEvent, toJsonCallbacks,
        bkvToJsonUint16, if_true]
      rfl
    | u64 v => exact visit_named hd rfl rfl rfl
    | _ => cases he

theorem renders_integers (env : Env) (accept : Accept) (hd : Knows z dv names) :
    Renders env z accept dv (renderInteger (stops env.uninitRet) accept names) Call.Numeric where
  opening := fun off _ _ cnt g hk => visit_opening env accept off hd hk cnt g
  closing := fun k key g => visit_closing names k key g
  add := fun g he _ _ => visit_integer hd he g

end Callbacks

/-- What may come next in a JSON text: its value, the name of a member or the end of the map, the
value of a member, or an element or the end of the array. -/
inductive Expected where
  | root | name | value | element
  deriving DecidableEq, Repr

/-- The places after a value. -/
def Expected.spent : Expected → List Expected → List Expected
  | .root, s => s
  | .name, s => s
  | .value, s => .name :: s
  | .element, s => .element :: s

/-- What a token makes of the places, those of the innermost container first. -/
def proceed : List Expected → GenCall → Option (List Expected)
  | .name :: s, .string _ => some (.value :: s)
  | .name :: s, .mapClose => some s
  | .name :: _, _ => none
  | .element :: s, .arrayClose => some s
  | _ :: _, .arrayClose => none
  | _ :: _, .mapClose => none
  | p :: s, .mapOpen => some (.name :: p.spent s)
  | p :: s, .arrayOpen => some (.element :: p.spent s)
  | p :: s, _ => some (p.spent s)
  | [], _ => none

/-- Whether a token may follow those that were taken. -/
def legal (taken : List GenCall) (c : GenCall) : Bool :=
  ((taken.foldlM proceed [.root]).bind (proceed · c)).isSome

/-- A generator that takes every legal token. -/
def Accept.Permits (accept : Accept) : Prop := ∀ taken c, legal taken c → accept taken c

/-- The integers among the tokens, each with the name that stands in front of it, if one does. -/
def received : Option (List UInt8) → List GenCall → List (Option (List UInt8) × Int)
  | _, [] => []
  | w, .integer v :: ts => (w, v) :: received none ts
  | _, .string w :: ts => received (some w) ts
  | _, _ :: ts => received none ts

/-- The integers that a record has, with their names. -/
def Call.integers (names : Names) : Call → List (Option (List UInt8) × Int)
  | .add (.keyed key v) => (v.integer?.map (names key, ·)).toList
  | .add (.elem v) => (v.scalar.integer?.map (none, ·)).toList
  | _ => []

/-- The integers of a document. -/
def integersOf (names : Names) (f : Items) : List (Option (List UInt8) × Int) :=
  (calls f).flatMap (Call.integers names)

/-- Integers under known keys, maps of these and arrays of integers. -/
def Integral (names : Names) : Kind → Items → Prop
  | _, .nil => True
  | .map, .leaf (.keyed key v) rest =>
    (key ≤ 0xFFC ∧ (names key).isSome ∧ v.integer?.isSome) ∧ Integral names .map rest
  | .array, .leaf (.elem v) rest => v.scalar.integer?.isSome ∧ Integral names .array rest
  | .map, .node (c, key) body rest =>
    (key ≤ 0xFFC ∧ (names key).isSome) ∧ Integral names c body ∧ Integral names .map rest
  | _, _ => False

/-- The integer of the record is given to the generator as it is. -/
def Call.Exact : Call → Prop
  | .add (.elem (.u64 _)) => False
  | .add (.keyed _ (.u64 v)) => v.toNat < 2 ^ 63
  | _ => True

/-- The loop goes on after the record. -/
def Call.GoesOn (names : Names) (stop : Bool) : Call → Prop
  | .opening .map key => ¬Unnamed names key
  | .add _ => stop = false
  | _ => True

def Call.IsInteger : Call → Prop
  | .add e => e.scalar.integer?.isSome
  | _ => False

/-- Every integer is reached and given as it is. -/
structure AllGiven (names : Names) (stop : Bool) (key : UInt16) (cs : List Call) : Prop where
  root : ∀ c ∈ cs, c.IsInteger → Unnamed names key
  exact : ∀ c ∈ cs, c.IsInteger → c.Exact
  goes : cs.Pairwise fun d c => c.IsInteger → d.GoesOn names stop

section Tokens
variable {names : Names}

/-- A name that waits for its value. -/
def pending (w : Option (List UInt8)) (ts : List GenCall) : Option (List UInt8) :=
  ts.foldl (fun _ t => match t with | .string w => some w | _ => none) w

theorem received_append (w : Option (List UInt8)) (ts us : List GenCall) :
    received w (ts ++ us) = received w ts ++ received (pending w ts) us := by
  induction ts generalizing w with
  | nil => rfl
  | cons t ts ih =>
    cases t <;> simp [received, ih, pending]

theorem received_quiet {w : Option (List UInt8)} {ts : List GenCall}
    (h : ∀ v, .integer v ∉ ts) : received w ts = [] := by
  induction ts generalizing w with
  | nil => rfl
  | cons t ts ih =>
    have hts : ∀ v, .integer v ∉ ts := fun v hv => h v (List.mem_cons_of_mem t hv)
    cases t with
    | integer v => exact absurd List.mem_cons_self (h v)
    | _ => exact ih hts

/-- The tokens of a record whose name is known. -/
def Call.due (names : Names) : Call → List GenCall
  | .opening k key => [.string ((names key).getD []), startToken k]
  | .closing k => [endToken k]
  | .add (.keyed key v) => [.string ((names key).getD []), .integer (v.integer?.getD 0)]
  | .add (.elem v) => [.integer (v.scalar.integer?.getD 0)]

/-- The record is an integer or a container with a known name. -/
def Call.Counted (names : Names) : Call → Prop
  | .opening _ key => (names key).isSome
  | .closing _ => True
  | .add (.keyed key v) => (names key).isSome ∧ v.integer?.isSome
  | .add (.elem v) => v.scalar.integer?.isSome

/-- The records can come at a place, one after the other, and a map where a name can. -/
def Orderly (names : Names) : List Expected → List Call → Prop
  | _, [] => True
  | s, c :: cs => c.Counted names ∧ (∀ key, c = .opening .map key → ∃ s', s = .name :: s') ∧
    ∃ s', (c.due names).foldlM proceed s = some s' ∧ Orderly names s' cs

/-- Where the contents of a container come. -/
def innerExpected : Kind → Expected
  | .map => .name
  | .array => .element

theorem orderly_contents {k : Kind} {f : Items} (hf : Integral names k f) {s : List Expected}
    {cs : List Call} (hcs : Orderly names (innerExpected k :: s) cs) :
    Orderly names (innerExpected k :: s) (calls f ++ cs) := by
  induction f generalizing k s cs with
  | nil => exact hcs
  | leaf e rest ih =>
    rcases k with _ | _ <;> rcases e with ⟨key, v⟩ | v
    · exact ⟨hf.1.2, nofun, _, rfl, ih hf.2 hcs⟩
    · exact hf.elim
    · exact hf.elim
    · exact ⟨hf.1, nofun, _, rfl, ih hf.2 hcs⟩
  | node l body rest ihb ih =>
    obtain ⟨c, key⟩ := l
    cases k with
    | array => exact hf.elim
    | map =>
      obtain ⟨⟨-, hname⟩, hbody, hrest⟩ := hf
      rw [calls_node, List.cons_append, List.append_assoc, List.cons_append]
      have hclosing : Orderly names (innerExpected c :: .name :: s)
          (.closing c :: (calls rest ++ cs)) := by
        refine ⟨trivial, nofun, .name :: s, ?_, ih hrest hcs⟩
        cases c <;> rfl
      refine ⟨hname, fun _ _ => ⟨s, rfl⟩, innerExpected c :: .name :: s, ?_, ihb hbody hclosing⟩
      cases c <;> rfl

end Tokens

section Records
variable {accept : Accept} {names : Names} {stop : Bool} {g : Gen} {s s' : List Expected}
variable {c : Call} {cs : List Call} {e : Entry}

/-- The generator has come to a place, and no name waits for its value. -/
structure Gen.At (g : Gen) (s : List Expected) : Prop where
  place : g.taken.foldlM proceed [.root] = some s
  settled : pending none g.taken = none

theorem pending_due (w : Option (List UInt8)) : pending w (c.due names) = none := by
  rcases c with ⟨_ | _, key⟩ | ⟨_ | _⟩ | ⟨key, v⟩ | v <;> rfl

theorem Gen.At.extend (hg : g.At s) (h : (c.due names).foldlM proceed s = some s') :
    (g.extend (c.due names)).At s' := by
  refine ⟨?_, ?_⟩
  · rw [Gen.extend, List.foldlM_append, hg.place]
    exact h
  · rw [Gen.extend, pending, List.foldl_append]
    exact pending_due _

/-- Tokens that are legal one after the other are taken. -/
theorem takes_of_proceed (hp : accept.Permits) {taken ts : List GenCall}
    (hs : taken.foldlM proceed [.root] = some s) (h : ts.foldlM proceed s = some s') :
    Takes accept taken ts := by
  induction ts generalizing taken s with
  | nil => trivial
  | cons t ts ih =>
    rw [List.foldlM_cons] at h
    obtain ⟨s₁, hs₁, h⟩ := Option.bind_eq_some_iff.mp h
    refine ⟨hp taken t ?_, ih ?_ h⟩
    · rw [legal, hs, Option.bind_some, hs₁]
      rfl
    · rw [List.foldlM_append, hs]
      simpa using hs₁

theorem received_due (hc : c.Counted names) : received none (c.due names) = c.integers names := by
  rcases c with ⟨_ | _, key⟩ | ⟨_ | _⟩ | ⟨key, v⟩ | v
  · rfl
  · rfl
  · rfl
  · rfl
  · obtain ⟨w, hw⟩ := Option.isSome_iff_exists.mp hc.1
    obtain ⟨n, hn⟩ := Option.isSome_iff_exists.mp hc.2
    rw [Call.due, Call.integers, hw, hn]
    rfl
  · obtain ⟨n, hn⟩ := Option.isSome_iff_exists.mp hc
    rw [Call.due, Call.integers, hn]
    rfl

theorem toInt_of_lt {v : UInt64} (h : v.toNat < 2 ^ 63) : v.toBitVec.toInt = v.toNat := by
  rw [BitVec.toInt_eq_toNat_cond, if_pos (by have := v.toNat_toBitVec; omega)]
  rfl

/-- An integer that is given as it is. -/
theorem tokens_exact (hc : (Call.add e).Counted names) (hx : (Call.add e).Exact) :
    e.integerTokens? names = some ((Call.add e).due names) := by
  rcases e with ⟨key, v⟩ | v
  · obtain ⟨w, hw⟩ := Option.isSome_iff_exists.mp hc.1
    have htokens : (Entry.keyed key v).integerTokens? names =
        do return [.string (← names key), .integer (← v.signed?)] := rfl
    rw [htokens, Call.due, hw]
    cases v with
    | u16 v => rfl
    | u32 v => rfl
    | u64 v =>
      rw [Scalar.signed?, toInt_of_lt hx]
      rfl
    | _ => cases hc.2
  · cases v with
    | u16 v => rfl
    | u64 v => exact hx.elim
    | _ => cases hc

theorem step_integer (hc : (Call.add e).Counted names) (hx : (Call.add e).Exact)
    (ha : Takes accept g.taken ((Call.add e).due names)) :
    renderInteger stop accept names (.add e) g = (stop, g.extend ((Call.add e).due names)) := by
  rw [renderInteger, tokens_exact hc hx]
  simp only [calls_extend ha]
  rfl

theorem step_due (hc : c.Counted names) (hx : c.IsInteger → c.Exact) (hgo : c.GoesOn names stop)
    (ha : Takes accept g.taken (c.due names)) :
    renderInteger stop accept names c g = (false, g.extend (c.due names)) := by
  rcases c with ⟨k, key⟩ | k | e
  · obtain ⟨w, hw⟩ := Option.isSome_iff_exists.mp hc
    rw [Call.due, hw] at ha ⊢
    refine render_opening k hw ?_ ha
    rintro rfl
    obtain ⟨hkey, hempty⟩ := not_or.mp hgo
    refine ⟨hkey, ?_⟩
    rintro rfl
    exact hempty hw
  · exact @render_closing accept names k g ha.1
  · have hint : (Call.add e).IsInteger := by
      rcases e with ⟨key, v⟩ | v
      · exact hc.2
      · exact hc
    rw [step_integer hc (hx hint) ha]
    exact congrArg (·, _) hgo

theorem isInteger_of_counted (hc : (Call.add e).Counted names) : (Call.add e).IsInteger := by
  rcases e with ⟨key, v⟩ | v
  · exact hc.2
  · exact hc

theorem call_taken (accept : Accept) (t : GenCall) (g : Gen) :
    ∃ out, (g.call accept t).2.taken = g.taken ++ out ∧ out <+: [t] ∧
      ((g.call accept t).1 = true ↔ out = [t]) := by
  rw [Gen.call]
  split
  · exact ⟨[t], rfl, List.prefix_refl _, by simp⟩
  · exact ⟨[], (List.append_nil _).symm, List.nil_prefix, by simp⟩

theorem calls_taken (accept : Accept) (ts : List GenCall) (g : Gen) :
    ∃ out, (g.calls accept ts).2.taken = g.taken ++ out ∧ out <+: ts ∧
      ((g.calls accept ts).1 = true ↔ out = ts) := by
  induction ts generalizing g with
  | nil => exact ⟨[], (List.append_nil _).symm, List.prefix_refl _, by simp [Gen.calls]⟩
  | cons t ts ih =>
    obtain ⟨out, hout, hpre, hall⟩ := call_taken accept t g
    rw [Gen.calls]
    cases hcall : g.call accept t with
    | mk ok g' =>
      rw [hcall] at hout hall
      cases ok with
      | true =>
        obtain ⟨out', hout', hpre', hall'⟩ := ih g'
        change g'.taken = _ at hout
        rw [hall.mp rfl] at hout
        refine ⟨t :: out', ?_, List.cons_prefix_cons.mpr ⟨rfl, hpre'⟩, ?_⟩
        · change (g'.calls accept ts).2.taken = _
          rw [hout', hout, List.append_assoc, List.singleton_append]
        · rw [List.cons.injEq]
          exact hall'.trans ⟨fun h => ⟨rfl, h⟩, fun h => h.2⟩
      | false =>
        refine ⟨out, hout, hpre.trans ⟨ts, rfl⟩, by simp, ?_⟩
        rintro rfl
        have hts : ts = [] := by simpa using hpre
        exact hall.mpr (by rw [hts])

theorem signed?_isSome (v : Scalar) : v.signed?.isSome = v.integer?.isSome := by
  cases v <;> rfl

theorem tokens_isInteger {ts : List GenCall} (h : e.integerTokens? names = some ts) :
    (Call.add e).IsInteger := by
  unfold Entry.integerTokens? at h
  split at h
  · rfl
  · obtain ⟨w, -, h⟩ := Option.bind_eq_some_iff.mp h
    obtain ⟨n, hn, -⟩ := Option.bind_eq_some_iff.mp h
    have hsome : e.scalar.signed?.isSome := by rw [hn]; rfl
    rwa [signed?_isSome] at hsome

/-- What a record adds to the tokens taken; only an integer adds integers. -/
theorem step_taken (stop : Bool) (accept : Accept) (names : Names) (c : Call) (g : Gen) :
    ∃ out, (renderInteger stop accept names c g).2.taken = g.taken ++ out ∧
      (c.IsInteger ∨ ∀ v, .integer v ∉ out) := by
  have hquiet : ∀ {ts out : List GenCall}, out <+: ts → (∀ v, .integer v ∉ ts) →
      ∀ v, .integer v ∉ out := fun hpre hts v hv => hts v (hpre.subset hv)
  rcases c with ⟨_ | _, key⟩ | k | e
  · rw [renderInteger_opening, renderCall]
    split
    · exact ⟨[], (List.append_nil _).symm, .inr (by simp)⟩
    · rename_i w _
      dsimp only [Gen.stop]
      split
      · obtain ⟨out, hout, hpre, -⟩ := call_taken accept (.string w) g
        obtain ⟨out', hout', hpre', -⟩ :=
          call_taken accept .mapOpen (g.call accept (.string w)).2
        refine ⟨out ++ out', by rw [hout', hout, List.append_assoc], .inr fun v hv => ?_⟩
        rcases List.mem_append.mp hv with hv | hv
        · exact hquiet hpre (by simp) v hv
        · exact hquiet hpre' (by simp) v hv
      · obtain ⟨out, hout, hpre, -⟩ := call_taken accept .mapOpen g
        exact ⟨out, hout, .inr (hquiet hpre (by simp))⟩
  · rw [renderInteger_opening, renderCall]
    split
    · exact ⟨[], (List.append_nil _).symm, .inr (by simp)⟩
    · obtain ⟨out, hout, hpre, -⟩ := calls_taken accept _ g
      exact ⟨out, hout, .inr (hquiet hpre (by simp))⟩
  · obtain ⟨out, hout, hpre, -⟩ := call_taken accept (endToken k) g
    exact ⟨out, hout, .inr (hquiet hpre (by cases k <;> simp [endToken]))⟩
  · rw [renderInteger]
    split
    · exact ⟨[], (List.append_nil _).symm, .inr (by simp)⟩
    · rename_i ts htokens
      obtain ⟨out, hout, -⟩ := calls_taken accept ts g
      exact ⟨out, hout, .inl (tokens_isInteger htokens)⟩

theorem run_taken (stop : Bool) (accept : Accept) (names : Names) (cs : List Call) (g : Gen) :
    ∃ out, (renderWith (renderInteger stop accept names) cs g).2.taken = g.taken ++ out ∧
      ((∀ c ∈ cs, ¬c.IsInteger) → ∀ v, .integer v ∉ out) := by
  induction cs generalizing g with
  | nil => exact ⟨[], (List.append_nil _).symm, fun _ => by simp⟩
  | cons c cs ih =>
    obtain ⟨out, hout, hquiet⟩ := step_taken stop accept names c g
    rw [renderWith_cons]
    split
    · refine ⟨out, hout, fun hcs => hquiet.resolve_left (hcs c List.mem_cons_self)⟩
    · obtain ⟨out', hout', hquiet'⟩ := ih (renderInteger stop accept names c g).2
      refine ⟨out ++ out', by rw [hout', hout, List.append_assoc], fun hcs v hv => ?_⟩
      rw [List.forall_mem_cons] at hcs
      rcases List.mem_append.mp hv with hv | hv
      · exact hquiet.resolve_left hcs.1 v hv
      · exact hquiet' hcs.2 v hv

/-- The calls for an integer either give it or end the loop. -/
theorem received_calls (accept : Accept) (w : List UInt8) (n : Int) (g : Gen) :
    ∃ out, (g.calls accept [.string w, .integer n]).2.taken = g.taken ++ out ∧
      ((g.calls accept [.string w, .integer n]).1 = false ∧ received none out = [] ∨
        received none out = [(some w, n)]) := by
  obtain ⟨out, hout, hpre, hall⟩ := calls_taken accept [.string w, .integer n] g
  refine ⟨out, hout, ?_⟩
  rcases out with _ | ⟨t, _ | ⟨u, ts⟩⟩
  · exact .inl ⟨by simpa using hall, rfl⟩
  · obtain ⟨rfl, -⟩ := List.cons_prefix_cons.mp hpre
    exact .inl ⟨by simpa using hall, rfl⟩
  · obtain ⟨ht, hpre'⟩ := List.cons_prefix_cons.mp hpre
    obtain ⟨hu, hts⟩ := List.cons_prefix_cons.mp hpre'
    rw [ht, hu, List.prefix_nil.mp hts]
    exact .inr rfl

/-- An integer that is not given as it is does not arrive under its name. -/
theorem step_inexact (accept : Accept) (stop : Bool) (g : Gen) (hc : (Call.add e).Counted names)
    (hx : ¬(Call.add e).Exact) :
    ∃ out, (renderInteger stop accept names (.add e) g).2.taken = g.taken ++ out ∧
      ((renderInteger stop accept names (.add e) g).1 = true ∧ received none out = [] ∨
        ∃ x y, received none out = [x] ∧ (Call.add e).integers names = [y] ∧ x ≠ y) := by
  have hgiven : ∀ w n y, e.integerTokens? names = some [.string w, .integer n] →
      (Call.add e).integers names = [y] → (some w, n) ≠ y →
      ∃ out, (renderInteger stop accept names (.add e) g).2.taken = g.taken ++ out ∧
        ((renderInteger stop accept names (.add e) g).1 = true ∧ received none out = [] ∨
          ∃ x y, received none out = [x] ∧ (Call.add e).integers names = [y] ∧ x ≠ y) := by
    intro w n y htokens hy hne
    obtain ⟨out, hout, hcase⟩ := received_calls accept w n g
    rw [renderInteger, htokens]
    refine ⟨out, hout, ?_⟩
    rcases hcase with ⟨hok, hnone⟩ | hone
    · exact .inl ⟨by simp [hok], hnone⟩
    · exact .inr ⟨_, y, hone, hy, hne⟩
  rcases e with ⟨key, v⟩ | v
  · cases v with
    | u64 v =>
      obtain ⟨w, hw⟩ := Option.isSome_iff_exists.mp hc.1
      refine hgiven w v.toBitVec.toInt (some w, v.toNat) ?_ ?_ ?_
      · change (do return [GenCall.string (← names key), .integer v.toBitVec.toInt]) = _
        rw [hw]
        rfl
      · rw [Call.integers, hw]
        rfl
      · intro heq
        have hv : v.toNat < 2 ^ 64 := v.toNat_lt
        have hge : ¬v.toNat < 2 ^ 63 := hx
        rw [Prod.mk.injEq, BitVec.toInt_eq_toNat_cond,
          if_neg (by have := v.toNat_toBitVec; omega)] at heq
        have := heq.2
        have := v.toNat_toBitVec
        omega
    | u16 v => exact absurd trivial hx
    | u32 v => exact absurd trivial hx
    | _ => cases hc.2
  · cases v with
    | u16 v => exact absurd trivial hx
    | u64 v =>
      have htokens : (Entry.elem (.u64 v)).integerTokens? names =
        (do return [.string (← names bkvArrayKey), .integer v.toBitVec.toInt]) := rfl
      cases hw : names bkvArrayKey with
      | some w =>
        refine hgiven w v.toBitVec.toInt (none, v.toNat) ?_ rfl (by simp)
        rw [htokens, hw]
        rfl
      | none =>
        rw [hw] at htokens
        rw [renderInteger, htokens]
        exact ⟨[], (List.append_nil _).symm, .inl ⟨rfl, rfl⟩⟩
    | _ => cases hc

theorem integers_add (names : Names) (e : Entry) :
    ∃ w, (Call.add e).integers names = (e.scalar.integer?.map (w, ·)).toList := by
  rcases e with ⟨key, v⟩ | v
  · exact ⟨names key, rfl⟩
  · exact ⟨none, rfl⟩

theorem integers_nil (h : ¬c.IsInteger) : c.integers names = [] := by
  rcases c with ⟨k, key⟩ | k | e
  · rfl
  · rfl
  · obtain ⟨w, hw⟩ := integers_add names e
    have hn : e.scalar.integer? = none := Option.not_isSome_iff_eq_none.mp h
    rw [hw, hn]
    rfl

theorem integers_single (names : Names) (h : c.IsInteger) : ∃ x, c.integers names = [x] := by
  rcases c with ⟨k, key⟩ | k | e
  · exact h.elim
  · exact h.elim
  · obtain ⟨w, hw⟩ := integers_add names e
    obtain ⟨n, hn⟩ := Option.isSome_iff_exists.mp h
    exact ⟨(w, n), by rw [hw, hn]; rfl⟩

theorem flatMap_integers_nil :
    cs.flatMap (Call.integers names) = [] ↔ ∀ c ∈ cs, ¬c.IsInteger := by
  rw [List.flatMap_eq_nil_iff]
  constructor
  · intro h c hc hint
    obtain ⟨x, hx⟩ := integers_single names hint
    rw [h c hc] at hx
    cases hx
  · intro h c hc
    exact integers_nil (h c hc)

theorem Gen.At.received (hg : g.At s) (ts : List GenCall) :
    received none (g.taken ++ ts) = received none g.taken ++ received none ts := by
  rw [received_append, hg.settled]

/-- What is still to come has no integers, so none is added to those received. -/
theorem run_quiet (hg : g.At s) (hcs : ∀ c ∈ cs, ¬c.IsInteger) :
    received none (renderWith (renderInteger stop accept names) cs g).2.taken =
      received none g.taken := by
  obtain ⟨out, hout, hquiet⟩ := run_taken stop accept names cs g
  rw [hout, hg.received, received_quiet (hquiet hcs), List.append_nil]

/-- If all integers are reached and given as they are, they are received. -/
theorem run_given (hp : accept.Permits) (hg : g.At s) (ho : Orderly names s cs)
    (hx : ∀ c ∈ cs, c.IsInteger → c.Exact)
    (hgo : cs.Pairwise fun d c => c.IsInteger → d.GoesOn names stop) :
    received none (renderWith (renderInteger stop accept names) cs g).2.taken =
      received none g.taken ++ cs.flatMap (Call.integers names) := by
  induction cs generalizing s g with
  | nil => simp [renderWith]
  | cons c cs ih =>
    obtain ⟨hc, -, s', hs', ho'⟩ := ho
    rw [List.forall_mem_cons] at hx
    rw [List.pairwise_cons] at hgo
    have ha := takes_of_proceed hp hg.place hs'
    have hadd : received none (g.extend (c.due names)).taken =
        received none g.taken ++ c.integers names := by
      rw [Gen.extend, hg.received, received_due hc]
    by_cases hint : ∃ d ∈ cs, d.IsInteger
    · obtain ⟨d, hd, hdint⟩ := hint
      rw [renderWith_cons, step_due hc hx.1 (hgo.1 d hd hdint) ha, if_neg Bool.false_ne_true,
        ih (hg.extend hs') ho' hx.2 hgo.2, hadd, List.flatMap_cons, List.append_assoc]
    · have hcs : ∀ d ∈ cs, ¬d.IsInteger := fun d hd hdint => hint ⟨d, hd, hdint⟩
      rw [List.flatMap_cons, flatMap_integers_nil.mpr hcs, List.append_nil]
      by_cases hci : c.IsInteger
      · obtain ⟨e, rfl⟩ : ∃ e, c = .add e := by
          cases c with
          | add e => exact ⟨e, rfl⟩
          | _ => exact hci.elim
        rw [renderWith_cons, step_integer hc (hx.1 hci) ha]
        cases stop with
        | true => exact hadd
        | false => rw [if_neg Bool.false_ne_true, run_quiet (hg.extend hs') hcs, hadd]
      · rw [run_quiet hg (List.forall_mem_cons.mpr ⟨hci, hcs⟩), integers_nil hci, List.append_nil]

theorem legal_permits : Accept.Permits legal := fun _ _ h => h

theorem pairwise_quiet (names : Names) (stop : Bool) (hcs : ∀ c ∈ cs, ¬c.IsInteger) :
    (∀ c ∈ cs, c.IsInteger → c.Exact) ∧
      cs.Pairwise fun d c => c.IsInteger → d.GoesOn names stop :=
  ⟨fun c hc h => absurd h (hcs c hc),
    List.pairwise_of_forall_mem_list fun _ _ c hc h => absurd h (hcs c hc)⟩

/-- An integer that is not given as it is is not received, whatever comes after it. -/
theorem inexact_missed (hg : g.At s) (hc : (Call.add e).Counted names) (hx : ¬(Call.add e).Exact) :
    received none (renderWith (renderInteger stop legal names) (.add e :: cs) g).2.taken ≠
      received none g.taken ++ (Call.add e :: cs).flatMap (Call.integers names) := by
  intro h
  obtain ⟨out, hout, hcase⟩ := step_inexact legal stop g hc hx
  obtain ⟨y, hy⟩ := integers_single names (isInteger_of_counted hc)
  rw [renderWith_cons, List.flatMap_cons, hy] at h
  rcases hcase with ⟨hstop, hnone⟩ | ⟨x, y', hone, hy', hne⟩
  · rw [if_pos hstop, hout, hg.received, hnone] at h
    simp at h
  · obtain ⟨out', hout', -⟩ := run_taken stop legal names cs
      (renderInteger stop legal names (.add e) g).2
    have hfinal : ∃ us, (if (renderInteger stop legal names (.add e) g).1 then
        (true, (renderInteger stop legal names (.add e) g).2) else
        renderWith (renderInteger stop legal names) cs
          (renderInteger stop legal names (.add e) g).2).2.taken = g.taken ++ (out ++ us) := by
      split
      · exact ⟨[], by rw [hout, List.append_nil]⟩
      · exact ⟨out', by rw [hout', hout, List.append_assoc]⟩
    obtain ⟨us, hus⟩ := hfinal
    rw [hus, hg.received, received_append, hone, List.append_cancel_left_eq] at h
    rw [hy, List.cons.injEq] at hy'
    exact hne ((List.cons.inj h).1.trans hy'.1)

/-- A map without a name is refused where a name must come. -/
theorem step_refused {key : UInt16} (hg : g.At (.name :: s)) (hu : Unnamed names key) :
    renderInteger stop legal names (.opening .map key) g =
      (true, { g with made := g.made ++ [.mapOpen] }) := by
  have hrefused : legal g.taken .mapOpen = false := by
    rw [legal, hg.place]
    rfl
  rw [renderInteger_opening, renderCall, hu.looked]
  simp [Gen.stop, Gen.call, hrefused]

/-- If the integers are received from a generator that refuses what is not legal, all of them are
reached and given as they are. -/
theorem given_of_run (hg : g.At s) (ho : Orderly names s cs)
    (h : received none (renderWith (renderInteger stop legal names) cs g).2.taken =
      received none g.taken ++ cs.flatMap (Call.integers names)) :
    (∀ c ∈ cs, c.IsInteger → c.Exact) ∧
      cs.Pairwise fun d c => c.IsInteger → d.GoesOn names stop := by
  induction cs generalizing s g with
  | nil => exact ⟨by simp, .nil⟩
  | cons c cs ih =>
    obtain ⟨hc, hname, s', hs', ho'⟩ := ho
    have ha := takes_of_proceed legal_permits hg.place hs'
    have hadd : received none (g.extend (c.due names)).taken =
        received none g.taken ++ c.integers names := by
      rw [Gen.extend, hg.received, received_due hc]
    have hpass : (c.IsInteger → c.Exact) → c.GoesOn names stop →
        (∀ d ∈ c :: cs, d.IsInteger → d.Exact) ∧
          (c :: cs).Pairwise fun d c => c.IsInteger → d.GoesOn names stop := by
      intro hx hgo
      rw [renderWith_cons, step_due hc hx hgo ha, if_neg Bool.false_ne_true, List.flatMap_cons,
        ← List.append_assoc, ← hadd] at h
      obtain ⟨hxs, hgos⟩ := ih (hg.extend hs') ho' h
      exact ⟨List.forall_mem_cons.mpr ⟨hx, hxs⟩, List.pairwise_cons.mpr ⟨fun _ _ _ => hgo, hgos⟩⟩
    rcases c with ⟨k, key⟩ | k | e
    · cases k with
      | array => exact hpass (by simp [Call.IsInteger]) trivial
      | map =>
        by_cases hu : Unnamed names key
        · obtain ⟨s₁, rfl⟩ := hname key rfl
          rw [renderWith_cons, step_refused hg hu, if_pos rfl] at h
          exact pairwise_quiet names stop (flatMap_integers_nil.mp (List.self_eq_append_right.mp h))
        · exact hpass (by simp [Call.IsInteger]) hu
    · exact hpass (by simp [Call.IsInteger]) trivial
    · by_cases hx : (Call.add e).Exact
      · cases stop with
        | false => exact hpass (fun _ => hx) rfl
        | true =>
          rw [renderWith_cons, step_integer hc hx ha, if_pos rfl, List.flatMap_cons,
            ← List.append_assoc, ← hadd] at h
          have hcs := flatMap_integers_nil.mp (List.self_eq_append_right.mp h)
          obtain ⟨hxs, hgos⟩ := pairwise_quiet names true hcs
          exact ⟨List.forall_mem_cons.mpr ⟨fun _ => hx, hxs⟩,
            List.pairwise_cons.mpr ⟨fun d hd hint => absurd hint (hcs d hd), hgos⟩⟩
      · exact absurd h (inexact_missed hg hc hx)

end Records

section Document
variable {names : Names} {key : UInt16} {stop : Bool}

theorem integral_numeric {k : Kind} {f : Items} (hf : Integral names k f) :
    ∀ c ∈ calls f, c.Numeric := by
  induction f generalizing k with
  | nil => simp
  | leaf e rest ih =>
    rcases k with _ | _ <;> rcases e with ⟨key, v⟩ | v
    · exact List.forall_mem_cons.mpr ⟨⟨hf.1.1, hf.1.2.2⟩, ih hf.2⟩
    · exact hf.elim
    · exact hf.elim
    · exact List.forall_mem_cons.mpr ⟨hf.1, ih hf.2⟩
  | node l body rest ihb ih =>
    obtain ⟨c, key⟩ := l
    cases k with
    | array => exact hf.elim
    | map =>
      simp only [calls_node, List.forall_mem_cons, List.forall_mem_append]
      exact ⟨hf.1.1, ihb hf.2.1, trivial, ih hf.2.2⟩

theorem AllGiven.mono {cs : List Call} (h : AllGiven names true key cs) (stop : Bool) :
    AllGiven names stop key cs := by
  refine ⟨h.root, h.exact, h.goes.imp ?_⟩
  intro d c hgo hint
  have hd := hgo hint
  rcases d with ⟨_ | _, key⟩ | k | e
  · exact hd
  · trivial
  · trivial
  · cases hd

/-- A root without a name is written as a map. -/
theorem root_opened {accept : Accept} (hp : accept.Permits) (hu : Unnamed names key)
    (cs : List Call) :
    renderWith (renderInteger stop accept names) (.opening .map key :: cs) ⟨[], []⟩ =
      renderWith (renderInteger stop accept names) cs ⟨[.mapOpen], [.mapOpen]⟩ := by
  have hopen : accept [] .mapOpen := hp [] .mapOpen rfl
  have hstep : renderInteger stop accept names (.opening .map key) ⟨[], []⟩ =
      (false, ⟨[.mapOpen], [.mapOpen]⟩) := by
    rw [renderInteger_opening, renderCall, hu.looked]
    simp [Gen.stop, Gen.call, hopen]
  rw [renderWith_cons, hstep]
  rfl

/-- A root with a name comes to nothing, as no map may follow the name. -/
theorem root_refused (hroot : key = bkvNoKey ∨ (names key).isSome) (hu : ¬Unnamed names key)
    (cs : List Call) :
    received none (renderWith (renderInteger stop legal names) (.opening .map key :: cs)
      ⟨[], []⟩).2.taken = [] := by
  obtain ⟨hne, hw⟩ := not_or.mp hu
  obtain ⟨w, hname⟩ := Option.isSome_iff_exists.mp (hroot.resolve_left hne)
  have hlen : 0 < w.length := by
    apply List.length_pos_iff.mpr
    rintro rfl
    exact hw hname
  have hstep : renderInteger stop legal names (.opening .map key) ⟨[], []⟩ =
      (true, ⟨[.string w, .mapOpen], [.string w]⟩) := by
    rw [renderInteger_opening, renderCall, if_neg hne, hname]
    simp only [hlen, if_true]
    rfl
  rw [renderWith_cons, hstep]
  rfl

/-- The rendering of a document of integers. -/
theorem rendering_received {f : Items} (hroot : key = bkvNoKey ∨ (names key).isSome)
    (hf : Integral names .map f) :
    (∀ accept : Accept, accept.Permits →
      received none (renderWith (renderInteger stop accept names)
        (calls (.node (.map, key) f .nil)) ⟨[], []⟩).2.taken = integersOf names f) ↔
    AllGiven names stop key (calls f) := by
  have ho : Orderly names [.name] (calls f ++ [.closing .map]) :=
    orderly_contents (k := .map) hf ⟨trivial, nofun, _, rfl, trivial⟩
  have hints : (calls f ++ [Call.closing .map]).flatMap (Call.integers names) = integersOf names f := by
    rw [List.flatMap_append, integersOf]
    exact List.append_nil _
  have hat : Gen.At ⟨[.mapOpen], [.mapOpen]⟩ [.name] := ⟨rfl, rfl⟩
  rw [calls_node, calls_nil]
  constructor
  · intro h
    have hlegal := h legal legal_permits
    by_cases hu : Unnamed names key
    · rw [root_opened legal_permits hu, ← hints] at hlegal
      obtain ⟨hx, hgo⟩ := given_of_run hat ho hlegal
      exact ⟨fun _ _ _ => hu, fun c hc => hx c (List.mem_append_left _ hc),
        (List.pairwise_append.mp hgo).1⟩
    · rw [root_refused hroot hu] at hlegal
      have hnone := flatMap_integers_nil.mp hlegal.symm
      obtain ⟨hx, hgo⟩ := pairwise_quiet names stop hnone
      exact ⟨fun c hc hint => absurd hint (hnone c hc), hx, hgo⟩
  · intro h accept hp
    by_cases hint : ∃ c ∈ calls f, c.IsInteger
    · obtain ⟨c, hc, hci⟩ := hint
      have hgo : (calls f ++ [Call.closing .map]).Pairwise
          fun d c => c.IsInteger → d.GoesOn names stop :=
        List.pairwise_append.mpr ⟨h.goes, List.pairwise_singleton _ _, by simp [Call.IsInteger]⟩
      have hx : ∀ c ∈ calls f ++ [.closing .map], c.IsInteger → c.Exact := by
        rw [List.forall_mem_append]
        exact ⟨h.exact, by simp [Call.IsInteger]⟩
      rw [root_opened hp (h.root c hc hci), run_given hp hat ho hx hgo, hints]
      rfl
    · have hnone : ∀ c ∈ Call.opening .map key :: (calls f ++ [.closing .map]), ¬c.IsInteger := by
        simp only [List.forall_mem_cons, List.forall_mem_append]
        exact ⟨id, fun c hc hci => hint ⟨c, hc, hci⟩, id, by simp⟩
      obtain ⟨out, hout, hquiet⟩ := run_taken stop accept names
        (.opening .map key :: (calls f ++ [.closing .map])) ⟨[], []⟩
      rw [hout, List.nil_append, received_quiet (hquiet hnone), integersOf,
        flatMap_integers_nil.mpr fun c hc hci => hint ⟨c, hc, hci⟩]

/-- `bkv_to_json` on a document of integers. -/
theorem toJson_integers (env : Env) (accept : Accept) {h : Bkv} {f rest : Items}
    {ws : List (UInt16 × List UInt8)}
    (hd : HoldsDocument h (calls (.node (.map, key)
      (f ++ .node (.map, bkvDicoKey) (dictionary ws) rest) .nil)))
    (hsize : h.writeOffset ≤ 65535) (hkey : key ≤ 0xFFC)
    (hf : Integral (fun k => ws.lookup k) .map (f ++ rest)) :
    bkvToJson env accept h = .ok (bkvOk,
      (renderWith (renderInteger (stops env.uninitRet) accept fun k => ws.lookup k)
        (calls (.node (.map, key) (f ++ rest) .nil)) ⟨[], []⟩).2) := by
  have hnum := integral_numeric hf
  have hm := hd.mapAt hsize (UInt16.le_trans hkey (by decide)) fun k key' hmem =>
    UInt16.le_trans (hnum _ hmem) (by decide)
  rw [calls_append, List.forall_mem_append] at hnum
  exact toJson_renders env accept (fun dv hk => renders_integers env accept hk)
    (fun c hc => numeric_within hc) hm hkey hnum.1 hnum.2

end Document

/-- Whatever the callbacks return, the generator receives every integer exactly if and only if none
is behind another one or behind a map that is written without the name it needs, none is a `u64` of
an array, and all fit a signed type. -/
theorem integers_exact_iff (h : Bkv) (key : UInt16) (f rest : Items)
    (ws : List (UInt16 × List UInt8))
    (hd : HoldsDocument h (calls (.node (.map, key)
      (f ++ .node (.map, bkvDicoKey) (dictionary ws) rest) .nil)))
    (hsize : h.writeOffset ≤ 65535) (hkey : key ≤ 0xFFC)
    (hroot : key = bkvNoKey ∨ (ws.lookup key).isSome)
    (hf : Integral (fun k => ws.lookup k) .map (f ++ rest)) :
    (∀ (env : Env) (accept : Accept), accept.Permits →
      ∃ g, bkvToJson env accept h = .ok (bkvOk, g) ∧
        received none g.taken = integersOf (fun k => ws.lookup k) (f ++ rest)) ↔
    AllGiven (fun k => ws.lookup k) true key (calls (f ++ rest)) := by
  constructor
  · intro hall
    rw [← rendering_received hroot hf]
    intro accept hp
    obtain ⟨g, hg, hints⟩ := hall { calmEnv with uninitRet := actionStopLoop } accept hp
    rw [toJson_integers _ accept hd hsize hkey hf] at hg
    cases hg
    exact hints
  · intro hgiven env accept hp
    exact ⟨_, toJson_integers env accept hd hsize hkey hf,
      (rendering_received hroot hf).mpr (hgiven.mono _) accept hp⟩

/-- `{1: [7]}` with a `u64` in the array, and a dictionary that names the key 1. -/
def wideDocument : Bkv :=
  (runOk calmEnv ramHandle [.opening .map 0, .opening .array 1, .add (.elem (.u64 7)),
    .closing .array, .opening .map 0xFFE, .add (.keyed 1 (.str [0x61])), .closing .map,
    .closing .map]).getD ramHandle

/-- The contents of `wideDocument` without the dictionary. -/
def wideItems : Items := .node (.array, 1) (.leaf (.elem (.u64 7)) .nil) .nil

/-- The rendering of `wideDocument` ends where the integer should come. -/
theorem array_u64_lost :
    HoldsDocument wideDocument (calls (.node (.map, 0)
      (wideItems ++ .node (.map, bkvDicoKey) (dictionary [(1, [0x61])]) .nil) .nil)) ∧
    Integral (fun k => [(1, [0x61])].lookup k) .map wideItems ∧ Accept.Permits legal ∧
    ∃ g, bkvToJson calmEnv legal wideDocument = .ok (bkvOk, g) ∧
      g.made = [.mapOpen, .string [0x61], .arrayOpen] ∧
      received none g.taken ≠ integersOf (fun k => [(1, [0x61])].lookup k) wideItems := by
  refine ⟨runOk_holds ramHandle_fresh rfl rfl, ?_, fun _ _ h => h, _, rfl, rfl, by decide⟩
  exact ⟨by decide, ⟨rfl, trivial⟩, trivial⟩

/-- `{1: 5}` with a dictionary that names the key 1. -/
def singleDocument : Bkv :=
  (runOk calmEnv ramHandle [.opening .map 0, .add (.keyed 1 (.u16 5)), .opening .map 0xFFE,
    .add (.keyed 1 (.str [0x61])), .closing .map, .closing .map]).getD ramHandle

theorem singleDocument_holds : HoldsDocument singleDocument (calls (.node (.map, 0)
    (.leaf (.keyed 1 (.u16 5)) .nil ++
      .node (.map, bkvDicoKey) (dictionary [(1, [0x61])]) .nil) .nil)) :=
  runOk_holds ramHandle_fresh rfl rfl

theorem integers_exact_single :
    (∀ (env : Env) (accept : Accept), accept.Permits →
      ∃ g, bkvToJson env accept singleDocument = .ok (bkvOk, g) ∧ received none g.taken =
        integersOf (fun k => [(1, [0x61])].lookup k) (.leaf (.keyed 1 (.u16 5)) .nil ++ .nil)) ↔
    AllGiven (fun k => [(1, [0x61])].lookup k) true 0
      (calls (.leaf (.keyed 1 (.u16 5)) .nil ++ .nil)) :=
  integers_exact_iff singleDocument 0 (.leaf (.keyed 1 (.u16 5)) .nil) .nil [(1, [0x61])]
    singleDocument_holds (by decide) (by decide) (.inl rfl) ⟨by decide, trivial⟩

end Wtools
