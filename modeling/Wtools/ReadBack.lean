import Wtools.Traverse

/-!
# What is read back

A closed document, traversed with callbacks that ask for nothing, gives one invocation
for each writer call, with what was given to that call.
-/

namespace Wtools
open ByteMemory Forest

/-- What an invocation shows of a record: strings are read through their pointer. -/
inductive Seen where
  | mapOpen (key : UInt16)
  | mapClose
  | arrayOpen (key : UInt16)
  | arrayClose
  | uint16 (map_deep : Int) (key : UInt16) (value : UInt16)
  | uint32 (map_deep : Int) (key : UInt16) (value : UInt32)
  | uint64 (map_deep : Int) (key : UInt16) (value : UInt64)
  | str (key : UInt16) (bytes : Option (List UInt8))
  | float (key : UInt16) (f : UInt32)
  | double (key : UInt16) (f : UInt64)
  | boolean (key : UInt16) (v : Bool)
  deriving DecidableEq, Repr

def Event.seen (z : Zone) : Event → Seen
  | .mapOpen _ key => .mapOpen key
  | .mapClose _ => .mapClose
  | .arrayOpen _ _ key => .arrayOpen key
  | .arrayClose => .arrayClose
  | .uint16 _ deep key v => .uint16 deep key v
  | .uint32 _ deep key v => .uint32 deep key v
  | .uint64 _ deep key v => .uint64 deep key v
  | .str _ key value len => .str key (z.slice? value len)
  | .float _ key f => .float key f
  | .double _ key d => .double key d
  | .boolean _ key v => .boolean key v

/-- What an add should give; `deep` containers are open. -/
def scalarSeen (deep : Int) (key : UInt16) : Scalar → Seen
  | .u16 v => .uint16 deep key v
  | .u32 v => .uint32 deep key v
  | .u64 v => .uint64 deep key v
  | .float v => .float key v
  | .double v => .double key v
  | .boolean v => .boolean key v
  | .str s => .str key (some s)
  | .wchar s => .str key (some (wcharBytes s))

/-- What the calls of a run should give, one by one, from a depth on. -/
def expected : Int → List Call → List Seen
  | _, [] => []
  | deep, .opening .map key :: cs => .mapOpen key :: expected (deep + 1) cs
  | deep, .opening .array key :: cs => .arrayOpen key :: expected (deep + 1) cs
  | deep, .closing .map :: cs => .mapClose :: expected (deep - 1) cs
  | deep, .closing .array :: cs => .arrayClose :: expected (deep - 1) cs
  | deep, .add e :: cs => scalarSeen deep e.key e.scalar :: expected deep cs

/-- The calls whose value is stored as it is: all but doubles and wide strings. -/
def Call.exact : Call → Bool
  | .add (.keyed _ (.double _)) | .add (.keyed _ (.wchar _)) => false
  | _ => true

variable {z : Zone} {off : Nat}

theorem scalar_seen (deep : Int) {e : Entry} (h : ByteMemory.Fits z.mem off e.pattern)
    (hz : off + e.width ≤ z.size) (hx : (Call.add e).exact) :
    (scalarEvent off deep e.key e.scalar).seen z = scalarSeen deep e.key e.scalar := by
  have hstr : ∀ s, e.scalar = .str s → z.slice? (off + 4) s.length = some s := by
    intro s hs
    rw [Entry.pattern, fits_append, fits_known, Entry.bytes, hs, Scalar.payload, holds_append,
      holds_append] at h
    simp only [Entry.width, Entry.bytes, hs, Scalar.payload, List.length_append] at hz
    refine Zone.slice?_of_holds h.1.2.2 rfl ?_
    simp only [setKey_length, cpuToLe16_length] at hz
    omega
  cases e with
  | keyed key v =>
    cases v with
    | str s => simp [Entry.scalar, scalarEvent, Event.seen, scalarSeen, hstr s rfl]
    | double v => cases hx
    | wchar s => cases hx
    | _ => rfl
  | elem v =>
    cases v with
    | str s => simp [Entry.scalar, Elem.scalar, scalarEvent, Event.seen, scalarSeen, hstr s rfl]
    | _ => rfl

theorem visits_seen (ck cn : Nat → UInt16) (deep : Int) {f : Items}
    (h : ByteMemory.Fits z.mem off (enc f))
    (hz : off + size f ≤ z.size) (hx : ∀ c ∈ calls f, c.exact) (cs : List Call) :
    expected deep (calls f ++ cs) =
      (placed ck cn deep off f).visits.map (Event.seen z) ++ expected deep cs := by
  induction f generalizing deep off cs with
  | nil => rfl
  | leaf e rest ih =>
    rw [fits_leaf] at h
    rw [calls_leaf, List.forall_mem_cons] at hx
    rw [size] at hz
    rw [calls_leaf, List.cons_append, expected, placed, visits, List.map_cons, List.cons_append,
      scalar_seen deep h.1 (by omega) hx.1, ih _ h.2 (by omega) hx.2]
  | node l body rest ihb ih =>
    obtain ⟨k, key⟩ := l
    obtain ⟨-, hb, -, hrest⟩ := fits_node.mp h
    simp only [calls_node, List.forall_mem_cons, List.forall_mem_append] at hx
    obtain ⟨-, hxb, -, hxr⟩ := hx
    rw [size] at hz
    dsimp only at hz
    have hdeep : deep + 1 - 1 = deep := by omega
    rw [calls_node, List.cons_append, List.append_assoc, List.cons_append]
    cases k <;>
      simp only [expected, ihb _ hb (by omega) hxb, ih _ hrest (by omega) hxr, placed, visits,
        List.map_cons, List.map_append, List.cons_append, List.append_assoc, openEvent, closeEvent,
        Event.seen, hdeep]

/-- A traversal that asks for nothing makes the invocations of the whole document tree. -/
theorem foreach_visits {key : UInt16} {body : Items}
    (hfit : ByteMemory.Fits z.mem 0 (enc (.node (.map, key) body .nil)))
    (hz : size (.node (.map, key) body .nil) ≤ z.size) (hbase : z.size < 2 ^ 31)
    (hcs : ∀ c ∈ calls (.node (.map, key) body .nil), c.Fits) {v : BkvVal} (hv : v.priv = 0)
    {σ : Type} (f : σ → Event → σ) (s : σ) :
    valForeachPtr z v (fun e s => .ok (actionNone, f s e)) s =
      .ok (bkvOk, size (.node (.map, key) body .nil),
        (placed (closeKeys z.mem) (counts z.mem) 0 0
          (.node (.map, key) body .nil)).visits.foldl f s) := by
  have hquiet : ∀ (e : Event) (s : σ), visit (fun e s => .ok (actionNone, f s e)) e s =
      .ok (⟨false, false⟩, f s e) := by
    intro e s
    simp [visit, Except.map, skips, actionNone, actionGotoEndMap]
  have hnoskip : NoSkip fun e s => .ok (actionNone, f s e) := by
    intro off key s r s' hcb
    cases hcb
    rfl
  have hroot := root_follows (s := s) hv hfit (by rwa [Nat.zero_add]) (by rwa [Nat.zero_add]) hcs
    (.inr hnoskip) (hnoskip 0 key s)
  rw [hquiet, visited_ok, Outcome.next_going, walk_quiet fun e _ => hquiet e] at hroot
  simp only [Follows] at hroot
  rw [hroot]
  simp [Except.map, placed, visits, openEvent, closeEvent, Kind.openWidth]

/-- Every closed document is read back call by call, up to the end of its last record. -/
theorem foreach_reads_back (env : Env) (h₀ h : Bkv) (cs : List Call) (hf : FreshRam env h₀)
    (hr : runOk env h₀ cs = some h) (ht : h.state = .term) (hx : ∀ c ∈ cs, c.exact)
    (hfits : ∀ c ∈ cs, c.Fits) (hsize : h.writeOffset < 2 ^ 31) :
    ∃ (evs : List Event) (v : BkvVal), evs.map (Event.seen (bkvGetHead h)) = expected 0 cs ∧
      bkvValInit (bkvGetHead h) bkvValInitValue 0 = .ok (bkvOk, v) ∧
      ∀ (σ : Type) (f : σ → Event → σ) (s : σ),
        valForeachPtr (bkvGetHead h) v (fun e s => .ok (actionNone, f s e)) s =
          .ok (bkvOk, h.writeOffset, evs.foldl f s) := by
  obtain ⟨-, key, body, -, rfl, hfit, hw⟩ := closed_layout hf hr ht
  have hz : 0 + size (.node (.map, key) body .nil) ≤ (bkvGetHead h).size := by
    rw [← hw, Nat.zero_add]
    exact Nat.le_refl _
  have hkey : key ≤ 0xFFF := hfits (.opening .map key) (by simp)
  have hseen := visits_seen (closeKeys h.ptr) (counts h.ptr) 0 hfit hz hx []
  rw [List.append_nil, expected, List.append_nil] at hseen
  refine ⟨_, _, hseen.symm, bkvValInit_map hfit hz hkey _, fun σ f s => ?_⟩
  rw [Nat.zero_add] at hz
  rw [hw]
  exact foreach_visits hfit hz hsize hfits rfl f s

theorem foreach_reads_back_array :
    ∃ h, runOk calmEnv ramHandle [.opening .map 1, .opening .array 2, .add (.elem (.u16 7)),
        .closing .array, .add (.keyed 3 (.str [104, 105])), .closing .map] = some h ∧
      ∃ (evs : List Event) (v : BkvVal), evs.map (Event.seen (bkvGetHead h)) =
          [.mapOpen 1, .arrayOpen 2, .uint16 2 0xFFD 7, .arrayClose, .str 3 (some [104, 105]),
            .mapClose] ∧
        bkvValInit (bkvGetHead h) bkvValInitValue 0 = .ok (bkvOk, v) ∧
        ∀ (σ : Type) (f : σ → Event → σ) (s : σ),
          valForeachPtr (bkvGetHead h) v (fun e s => .ok (actionNone, f s e)) s =
            .ok (bkvOk, h.writeOffset, evs.foldl f s) :=
  ⟨_, rfl, foreach_reads_back calmEnv ramHandle _ [.opening .map 1, .opening .array 2,
    .add (.elem (.u16 7)), .closing .array, .add (.keyed 3 (.str [104, 105])), .closing .map]
    ramHandle_fresh rfl rfl (by decide) (by simp [Call.Fits]; decide) (by decide)⟩

end Wtools
