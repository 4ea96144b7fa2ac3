import Wtools.Nesting
import Wtools.ReadBack

/-!
# Recovering the calls

The invocations of a traversal give back the writer calls of a document, as its containers tell the
members of maps from the elements of arrays. So the bytes of a document determine its calls, also
when other bytes follow them.
-/

namespace Wtools
open ByteMemory Forest

/-- What was added to a container that has this value under this key. -/
def entryIn : Kind → UInt16 → Scalar → Entry
  | .array, _, .u16 v => .elem (.u16 v)
  | .array, _, .u64 v => .elem (.u64 v)
  | .array, _, .float v => .elem (.float v)
  | .array, _, .boolean v => .elem (.boolean v)
  | .array, _, .str s => .elem (.str s)
  | _, key, v => .keyed key v

/-- The calls of what is seen, inside the containers `ks`. -/
def recovered : List Kind → List Seen → List Call
  | _, [] => []
  | ks, .mapOpen key :: l => .opening .map key :: recovered (.map :: ks) l
  | ks, .mapClose :: l => .closing .map :: recovered ks.tail l
  | ks, .arrayOpen key :: l => .opening .array key :: recovered (.array :: ks) l
  | ks, .arrayClose :: l => .closing .array :: recovered ks.tail l
  | ks, .uint16 _ key v :: l => .add (entryIn (ks.headD .map) key (.u16 v)) :: recovered ks l
  | ks, .uint32 _ key v :: l => .add (entryIn (ks.headD .map) key (.u32 v)) :: recovered ks l
  | ks, .uint64 _ key v :: l => .add (entryIn (ks.headD .map) key (.u64 v)) :: recovered ks l
  | ks, .str key s :: l => .add (entryIn (ks.headD .map) key (.str (s.getD []))) :: recovered ks l
  | ks, .float key v :: l => .add (entryIn (ks.headD .map) key (.float v)) :: recovered ks l
  | ks, .double key v :: l => .add (entryIn (ks.headD .map) key (.double v)) :: recovered ks l
  | ks, .boolean key v :: l => .add (entryIn (ks.headD .map) key (.boolean v)) :: recovered ks l

theorem recovered_add {e : Entry} (hx : (Call.add e).exact) (deep : Int) (ks : List Kind)
    (l : List Seen) :
    recovered (e.kind :: ks) (scalarSeen deep e.key e.scalar :: l) =
      .add e :: recovered (e.kind :: ks) l := by
  cases e with
  | elem v => cases v <;> rfl
  | keyed key v =>
    cases v with
    | double v => cases hx
    | wchar s => cases hx
    | _ => rfl

theorem recovered_calls {k : Kind} {f : Items} (hl : Legal k f) (hx : ∀ c ∈ calls f, c.exact)
    (deep : Int) (ks : List Kind) (cs : List Call) :
    recovered (k :: ks) (expected deep (calls f ++ cs)) =
      calls f ++ recovered (k :: ks) (expected deep cs) := by
  induction f generalizing k deep ks cs with
  | nil => rfl
  | leaf e rest ih =>
    obtain ⟨rfl, hrest⟩ := hl
    rw [calls_leaf, List.forall_mem_cons] at hx
    rw [calls_leaf, List.cons_append, expected, recovered_add hx.1, ih hrest hx.2]
    rfl
  | node l body rest ihb ih =>
    obtain ⟨c, key⟩ := l
    obtain ⟨-, hb, hrest⟩ := hl
    simp only [calls_node, List.forall_mem_cons, List.forall_mem_append] at hx
    obtain ⟨-, hxb, -, hxr⟩ := hx
    have hdeep : deep + 1 - 1 = deep := by omega
    rw [calls_node, List.cons_append, List.append_assoc, List.cons_append]
    cases c <;>
      simp only [expected, recovered, ihb hb hxb, ih hrest hxr, List.tail_cons, List.cons_append,
        List.append_assoc, hdeep]

/-- What a document should show gives back its calls. -/
theorem recovered_document {key : UInt16} {body : Items} (hl : Legal .map body)
    (hx : ∀ c ∈ calls (.node (.map, key) body .nil), c.exact) :
    recovered [.map] (expected 0 (calls (.node (.map, key) body .nil))) =
      calls (.node (.map, key) body .nil) := by
  have h := recovered_calls (legal_map .map key hl) hx 0 [] []
  rwa [List.append_nil, expected, recovered, List.append_nil] at h

section Documents
variable {z : Zone} {key key' : UInt16} {body body' : Items}

/-- Two documents at the same place are the same. -/
theorem document_unique (hl : Legal .map body) (hl' : Legal .map body')
    (hx : ∀ c ∈ calls (.node (.map, key) body .nil), c.exact)
    (hx' : ∀ c ∈ calls (.node (.map, key') body' .nil), c.exact)
    (hfit : ByteMemory.Fits z.mem 0 (enc (.node (.map, key) body .nil)))
    (hfit' : ByteMemory.Fits z.mem 0 (enc (.node (.map, key') body' .nil)))
    (hz : size (.node (.map, key) body .nil) ≤ z.size)
    (hz' : size (.node (.map, key') body' .nil) ≤ z.size) (hnear : z.size < 2 ^ 31)
    (hcs : ∀ c ∈ calls (.node (.map, key) body .nil), c.Fits)
    (hcs' : ∀ c ∈ calls (.node (.map, key') body' .nil), c.Fits) :
    calls (.node (.map, key) body .nil) = calls (.node (.map, key') body' .nil) := by
  have hvisits := foreach_visits hfit hz hnear hcs (v := bkvValInitValue) rfl
    (fun evs e => e :: evs) []
  have hvisits' := foreach_visits hfit' hz' hnear hcs' (v := bkvValInitValue) rfl
    (fun evs e => e :: evs) []
  have hsame := hvisits.symm.trans hvisits'
  rw [Except.ok.injEq, Prod.mk.injEq, Prod.mk.injEq] at hsame
  have hevents := hsame.2.2
  rw [List.foldl_flip_cons_eq_append, List.foldl_flip_cons_eq_append, List.append_nil,
    List.append_nil, List.reverse_inj, List.map_id_fun', id_eq, id_eq] at hevents
  have hseen := visits_seen (closeKeys z.mem) (counts z.mem) 0 hfit (by rwa [Nat.zero_add]) hx []
  have hseen' := visits_seen (closeKeys z.mem) (counts z.mem) 0 hfit' (by rwa [Nat.zero_add]) hx' []
  rw [List.append_nil] at hseen hseen'
  calc calls (.node (.map, key) body .nil)
    _ = recovered [.map] (expected 0 (calls (.node (.map, key) body .nil))) :=
      (recovered_document hl hx).symm
    _ = recovered [.map] (expected 0 (calls (.node (.map, key') body' .nil))) := by
      rw [hseen, hseen', hevents]
    _ = calls (.node (.map, key') body' .nil) := recovered_document hl' hx'

end Documents

/-- Two documents that agree on the length of the shorter one were made by the same calls, and these
stayed inside the nesting stacks. -/
theorem bytes_determine_calls (env env' : Env) (h₀ h₀' h h' : Bkv) (cs cs' : List Call)
    (hf : FreshRam env h₀) (hf' : FreshRam env' h₀') (hr : runOk env h₀ cs = some h)
    (hr' : runOk env' h₀' cs' = some h') (ht : h.state = .term) (ht' : h'.state = .term)
    (hlevels : InLevels cs) (hlevels' : InLevels cs')
    (hx : ∀ c ∈ cs, c.exact) (hx' : ∀ c ∈ cs', c.exact) (hfits : ∀ c ∈ cs, c.Fits)
    (hfits' : ∀ c ∈ cs', c.Fits) (hsize : h'.writeOffset < 2 ^ 31)
    (hle : h.writeOffset ≤ h'.writeOffset) (hbytes : AgreeOn h.ptr h'.ptr 0 h.writeOffset) :
    cs = cs' ∧ Always env (NestingSafe env) h₀ cs ∧ Always env' (NestingSafe env') h₀' cs' := by
  refine ⟨?_, nestingSafe_levels hf hr hlevels, nestingSafe_levels hf' hr' hlevels'⟩
  obtain ⟨-, key, body, hl, rfl, hfit, hw⟩ := closed_layout hf hr ht
  obtain ⟨-, key', body', hl', rfl, hfit', hw'⟩ := closed_layout hf' hr' ht'
  have hlength : (enc (.node (.map, key) body .nil)).length = h.writeOffset := by
    rw [hw, enc_length]
  have hcopied : ByteMemory.Fits h'.ptr 0 (enc (.node (.map, key) body .nil)) :=
    hfit.congr (by rwa [hlength, Nat.zero_add])
  have hz : size (.node (.map, key) body .nil) ≤ (bkvGetHead h').size := hw ▸ hle
  have hz' : size (.node (.map, key') body' .nil) ≤ (bkvGetHead h').size := by
    rw [← hw']
    exact Nat.le_refl _
  exact document_unique (z := bkvGetHead h') hl hl' hx hx' hcopied hfit' hz hz' hsize hfits hfits'

/-- The calls of a document with one array of one element. -/
def elementCalls (v : UInt16) : List Call :=
  [.opening .map 1, .opening .array 2, .add (.elem (.u16 v)), .closing .array, .closing .map]

theorem elementCalls_fits : ∀ c ∈ elementCalls 7 ++ elementCalls 8, c.Fits := by
  simp [elementCalls, Call.Fits]
  decide

/-- Two documents of other calls differ in their bytes, and one of the same calls was made inside the
nesting stacks. -/
theorem bytes_determine_calls_word :
    (∃ h h', runOk calmEnv ramHandle (elementCalls 7) = some h ∧
      runOk calmEnv ramHandle (elementCalls 8) = some h' ∧ h.writeOffset ≤ h'.writeOffset ∧
      ¬AgreeOn h.ptr h'.ptr 0 h.writeOffset) ∧
    ∃ h, runOk calmEnv ramHandle (elementCalls 7) = some h ∧
      AgreeOn h.ptr h.ptr 0 h.writeOffset ∧
      Always calmEnv (NestingSafe calmEnv) ramHandle (elementCalls 7) := by
  have hfits := List.forall_mem_append.mp elementCalls_fits
  have h7 : runOk calmEnv ramHandle (elementCalls 7) = some _ := rfl
  have h8 : runOk calmEnv ramHandle (elementCalls 8) = some _ := rfl
  have hsame := bytes_determine_calls calmEnv calmEnv ramHandle ramHandle _ _ _ _ ramHandle_fresh
    ramHandle_fresh h7 h7 rfl rfl (by decide) (by decide) (by decide) (by decide) hfits.1 hfits.1
    (by decide) (Nat.le_refl _) AgreeOn.refl
  refine ⟨⟨_, _, h7, h8, by decide, fun hbytes => ?_⟩, _, h7, AgreeOn.refl, hsame.2.1⟩
  have hother := bytes_determine_calls calmEnv calmEnv ramHandle ramHandle _ _ _ _ ramHandle_fresh
    ramHandle_fresh h7 h8 rfl rfl (by decide) (by decide) (by decide) (by decide) hfits.1 hfits.2
    (by decide) (by decide) hbytes
  exact absurd hother.1 (by decide)

end Wtools
