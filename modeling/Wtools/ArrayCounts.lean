import Wtools.Splice
import Wtools.Elements
import Wtools.Untrusted

/-!
# The element counts of arrays

The count that the header of an array gets when it is closed stands in a slot of the handle, one for
each depth. Most array adds count in it. The add of a 64-bit integer and the opening of a map do
not, and nothing sets a slot back, so an array inherits what other arrays at its depth have counted.
-/

namespace Wtools
open ByteMemory Forest

/-- Whether an accepted call counts an element of the innermost container. -/
def Call.counts : Call → Bool
  | .add e => e.counts
  | .opening _ _ | .closing _ => false

/-- The elements that calls count while `d` containers are open; `deep` are open before them. -/
def tally (d : Int) : Int → List Call → Nat
  | _, [] => 0
  | deep, c :: cs => (if c.counts ∧ deep = d then 1 else 0) + tally d (deep + c.step) cs

/-- The number of elements of a container. -/
def elements : Items → Nat
  | .nil => 0
  | .leaf _ rest | .node _ _ rest => 1 + elements rest

/-- The elements of a container that are not counted. -/
def uncounted : Items → Nat
  | .nil => 0
  | .leaf e rest => (if e.counts then 0 else 1) + uncounted rest
  | .node _ _ rest => 1 + uncounted rest

section Tally
variable {d deep : Int} {f : Items}

theorem tally_append (d deep : Int) (cs ds : List Call) :
    tally d deep (cs ++ ds) = tally d deep cs + tally d (deep + steps cs) ds := by
  induction cs generalizing deep with
  | nil => simp [tally]
  | cons c cs ih =>
    rw [List.cons_append, tally, ih, tally, steps_cons, Int.add_assoc, Nat.add_assoc]

theorem tally_deeper (h : d < deep) : tally d deep (calls f) = 0 := by
  induction f generalizing deep with
  | nil => rfl
  | leaf e rest ih =>
    rw [calls_leaf, tally, Call.step, Int.add_zero, ih h, if_neg (by omega)]
  | node l body rest ihb ih =>
    obtain ⟨k, key⟩ := l
    have hdeep : deep + 1 + -1 = deep := by omega
    have hbody : tally d (deep + 1) (calls body) = 0 := ihb (by omega)
    simp only [calls_node, tally, tally_append, steps_calls, Call.step, Int.add_zero, hdeep, ih h,
      hbody, Call.counts, Bool.false_eq_true, false_and, if_false]

/-- The counted elements of a container and those that are not counted are all its elements. -/
theorem tally_elements (d : Int) (f : Items) :
    tally d d (calls f) + uncounted f = elements f := by
  induction f with
  | nil => rfl
  | leaf e rest ih =>
    rw [calls_leaf, tally, Call.step, Int.add_zero, uncounted, elements, ← ih, Call.counts]
    cases e.counts <;> simp <;> omega
  | node l body rest ihb ih =>
    obtain ⟨k, key⟩ := l
    have hdeep : d + 1 + -1 = d := by omega
    have hbody : tally d (d + 1) (calls body) = 0 := tally_deeper (by omega)
    simp only [calls_node, tally, tally_append, steps_calls, Call.step, Int.add_zero, hdeep, hbody,
      Call.counts, Bool.false_eq_true, false_and, if_false, uncounted, elements]
    omega

end Tally

section Slots
variable {env : Env} {h h' : Bkv} {p : Position} {cs ds : List Call}

theorem after_slot (env : Env) (h : Bkv) (c : Call) (d : Int) :
    (h.after env c).arrayNbElems d =
      h.arrayNbElems d + if c.counts ∧ h.deepOffset = d then 1 else 0 := by
  cases c with
  | opening k key => rfl
  | closing k => rfl
  | add e =>
    rw [Bkv.after, Bkv.add, Call.counts]
    cases e.counts with
    | false => rfl
    | true =>
      by_cases hd : h.deepOffset = d
      · subst hd
        simp [Bkv.countElem, Bkv.emit, Bkv.store, Bkv.skip, grow]
      · have hne : d ≠ h.deepOffset := fun h' => hd h'.symm
        simp [Bkv.countElem, Bkv.emit, Bkv.store, Bkv.skip, grow, hd, Cells.set_of_ne _ _ hne]

/-- A run adds to the slot of a depth what it counts at that depth. -/
theorem runOk_slot (hs : Sim h p) (hr : runOk env h cs = some h') (d : Int) :
    h'.arrayNbElems d = h.arrayNbElems d + tally (d + 1) (h.deepOffset + 1) cs := by
  induction cs generalizing h p with
  | nil =>
    cases hr
    rfl
  | cons c cs ih =>
    obtain ⟨p', -, hs', hr'⟩ := hs.runOk_cons hr
    have hdeep : h.deepOffset + c.step + 1 = h.deepOffset + 1 + c.step := by omega
    have hiff : (c.counts ∧ h.deepOffset = d) ↔ (c.counts ∧ h.deepOffset + 1 = d + 1) :=
      and_congr_right fun _ => by omega
    rw [ih hs' hr', after_slot, after_step, tally, hdeep, Nat.add_assoc]
    simp only [hiff]

end Slots

section Stored
variable {env : Env} {h₀ h h' : Bkv} {p : Position} {root key : UInt16} {body arr : Items}
  {pre : List Call}

theorem runOk_one (hs : Sim h p) {c : Call} (hr : runOk env h [c] = some h') :
    h' = h.after env c := by
  obtain ⟨p', -, -, hr'⟩ := hs.runOk_cons hr
  exact (Option.some.inj hr').symm

theorem closeMem_counts (m : Mem) (w o n : Nat) :
    counts (Kind.array.closeMem m w o n) o = .ofNat n := by
  have hput : Holds (Kind.array.closeMem m w o n) (o + 4) (cpuToLe16 (.ofNat n)) :=
    (holds_put (m := put (put m w [0x40]) (w + 2) [0xee, 0xee, 0xee])).congr
      (put_agree_above (by simp))
  simp only [cpuToLe16, holds_cons] at hput
  rw [counts, hput.1, hput.2.1, le16ToCpu_cpuToLe16]

/-- The header of an array that is closed gets the count of its slot. -/
theorem array_counted (hs : Sim h p)
    (hr : runOk env h (calls (.node (.array, key) arr .nil)) = some h') :
    counts h'.ptr h.writeOffset = .ofNat (h.arrayNbElems (h.deepOffset + 1) +
      tally (h.deepOffset + 2) (h.deepOffset + 2) (calls arr)) := by
  have hcalls : calls (.node (.array, key) arr .nil) =
      (.opening .array key :: calls arr) ++ [.closing .array] := by
    rw [calls_node, calls_nil]
    rfl
  rw [hcalls, runOk_append, Option.bind_eq_some_iff] at hr
  obtain ⟨h₁, hr₁, hr⟩ := hr
  obtain ⟨p₁, -, hs₁, -⟩ := hs.runOk env hr₁
  have ho := opened_header hs hr₁
  have hd := (runOk_moves hs hr₁).2
  have hslot := runOk_slot hs hr₁ (h.deepOffset + 1)
  rw [steps_cons, steps_calls, Call.step, Int.add_zero] at hd
  have hcount : h₁.arrayNbElems h₁.deepOffset = h.arrayNbElems (h.deepOffset + 1) +
      tally (h.deepOffset + 2) (h.deepOffset + 2) (calls arr) := by
    rw [hd, hslot, tally, Call.counts, Call.step, Int.add_assoc]
    simp
  obtain rfl := runOk_one hs₁ hr
  change counts (Kind.array.closeMem h₁.ptr h₁.writeOffset (h₁.mapOffset h₁.deepOffset)
    (h₁.arrayNbElems h₁.deepOffset)) h.writeOffset = _
  rw [ho, hcount, closeMem_counts]

/-- The header of an array in a closed document has the elements counted at its depth from the first
call on, up to the close of the array. -/
theorem stored_counts (hf : FreshRam env h₀)
    (hr : runOk env h₀ (calls (.node (.map, root) body .nil)) = some h)
    (harr : Within (.node (.map, root) body .nil) pre (.node (.array, key) arr .nil)) :
    counts h.ptr (widths pre) = .ofNat (tally (steps pre + 1) 0 pre +
      tally (steps pre + 1) (steps pre + 1) (calls arr)) := by
  have hs₀ := freshRam_sim hf
  have hempty : h₀.arrayNbElems (steps pre) = 0 := by
    obtain ⟨id, chunk, rfl⟩ := hf.eq
    rfl
  obtain ⟨post, hpost⟩ := harr.split
  rw [hpost, runOk_append, Option.bind_eq_some_iff] at hr
  obtain ⟨h₁, hr₁, hr⟩ := hr
  rw [runOk_append, Option.bind_eq_some_iff] at hr
  obtain ⟨h₂, hr₂, hr⟩ := hr
  obtain ⟨p, -, hs₁, -⟩ := hs₀.runOk env hr₁
  obtain ⟨hw₁, hdeep⟩ := fresh_moves hs₀ hr₁
  have hslot := runOk_slot hs₀ hr₁ (steps pre)
  rw [show h₀.deepOffset = -1 from hs₀.controls.2] at hslot
  obtain ⟨p', hs₂, hapart⟩ := closed_apart hs₁ hr₂
  have hcount := array_counted hs₁ hr₂
  have hw₂ := (runOk_moves hs₁ hr₂).1
  rw [widths_calls, size] at hw₂
  simp only [Kind.openWidth] at hw₂
  have hkept := runOk_frame hs₂ hr (Nat.le_refl _) hapart
  have hopen : h₁.deepOffset + 2 = steps pre + 1 := by omega
  rw [hdeep, hopen, hslot, hempty, Nat.zero_add] at hcount
  rw [counts, ← hkept _ (by omega) (by omega), ← hkept _ (by omega) (by omega), ← hw₁]
  exact hcount

end Stored

section Lookup
variable {σ : Type} {z : Zone} {cb : Callbacks σ} {P : σ → Prop} {off : Nat} {deep : Int} {s : σ}

/-- An invocation that gives the count of an array gives the one in its header. -/
def Event.Counted (m : Mem) : Event → Prop
  | .arrayOpen p len _ => len = counts m p
  | _ => True

def Turn.data : Turn σ → σ
  | .go _ _ _ s => s
  | .quit s => s

theorem read16_value {i : Nat} {v : UInt16} (h : read16 z i = .ok v) :
    v = le16ToCpu (z.mem i) (z.mem (i + 1)) := by
  rw [read16_of_le (read16_ok h)] at h
  exact (Except.ok.inj h).symm

/-- What the callbacks keep, one turn of the loop keeps. -/
theorem turn_keeps (hcb : ∀ e s r s', e.Counted z.mem → P s → cb e s = .ok (r, s') → P s') (hs : P s)
    {t : Turn σ} (ht : turn z cb off deep s = .ok t) : P t.data := by
  obtain ⟨b0, -, ht⟩ := bind_ok ht
  obtain ⟨b1, -, ht⟩ := bind_ok ht
  dsimp only at ht
  split at ht
  · obtain ⟨⟨r, s'⟩, hc, ht⟩ := bind_ok ht
    have hp := hcb _ _ _ _ (by trivial) hs hc
    dsimp only at ht
    split at ht
    · obtain ⟨n, -, ht⟩ := bind_ok ht
      split at ht <;> cases ht <;> exact hp
    · cases ht
      exact hp
  · obtain ⟨⟨r, s'⟩, hc, ht⟩ := bind_ok ht
    cases ht
    exact hcb _ _ _ _ (by trivial) hs hc
  · obtain ⟨n, hn, ht⟩ := bind_ok ht
    obtain ⟨⟨r, s'⟩, hc, ht⟩ := bind_ok ht
    cases ht
    have hcounted : (Event.arrayOpen off n (hdrKey b0 b1)).Counted z.mem := read16_value hn
    exact hcb _ _ _ _ hcounted hs hc
  · obtain ⟨⟨r, s'⟩, hc, ht⟩ := bind_ok ht
    cases ht
    exact hcb _ _ _ _ (by trivial) hs hc
  iterate 7
    obtain ⟨n, -, ht⟩ := bind_ok ht
    obtain ⟨⟨r, s'⟩, hc, ht⟩ := bind_ok ht
    cases ht
    exact hcb _ _ _ _ (by trivial) hs hc
  · cases ht
    exact hs

theorem loop_keeps (hcb : ∀ e s r s', e.Counted z.mem → P s → cb e s = .ok (r, s') → P s') (hs : P s)
    {base fuel : Nat} {r : Int} {p : Nat} {s' : σ}
    (hl : loop z cb base fuel off deep s = .ok (r, p, s')) : P s' := by
  induction fuel generalizing off deep s with
  | zero => cases hl
  | succ fuel ih =>
    obtain ⟨t, ht, hl⟩ := bind_ok hl
    have hp := turn_keeps hcb hs ht
    cases t with
    | quit s₁ =>
      cases hl
      exact hp
    | go l_ret off' deep' s₁ =>
      dsimp only at hl
      split at hl
      · exact ih hp hl
      · cases hl
        exact hp

/-- A lookup that has stored an array in its first result stored the count in the header of it. -/
structure ArrayStored (m : Mem) (c : GetCtx) : Prop where
  fresh : c.valIsSet = false → c.valOffset = 0
  stored : c.valIsSet = true → (c.val 0).type = .array →
    (c.val 0).u = .array (counts m (c.val 0).priv)

variable {m : Mem} {c c' : GetCtx} {r : UInt32} {key : UInt16}

theorem ArrayStored.setVal (f : BkvVal → BkvVal)
    (hf : ∀ v, (f v).type = .array → (f v).u = .array (counts m (f v).priv)) :
    ArrayStored m (c.setVal f) where
  fresh := by
    intro h
    cases h
  stored := by
    intro _ ht
    simp only [GetCtx.setVal, Cells.set_self] at ht ⊢
    exact hf _ ht

theorem ArrayStored.number {type : ValType} {u : ValU} {f : BkvVal → BkvVal} (h : ArrayStored m c)
    (hc : getNumber type u f key c = .ok (r, c')) (ht : type ≠ .array)
    (hf : ∀ v, (f v).type = v.type) : ArrayStored m c' := by
  rw [getNumber] at hc
  split at hc
  · cases hc
    refine ⟨by simp, ?_⟩
    intro _ htype
    dsimp only at htype ⊢
    by_cases h0 : c.valOffset = 0
    · rw [h0, Cells.set_self] at htype
      exact absurd htype ht
    · rw [Cells.set_of_ne _ _ (Ne.symm h0)] at htype ⊢
      cases hset : c.valIsSet with
      | false => exact absurd (h.fresh hset) h0
      | true => exact h.stored hset htype
  · obtain ⟨last, -, hc⟩ := bind_ok hc
    split at hc
    · cases hc
      refine .setVal _ ?_
      intro v hv
      rw [hf] at hv
      exact absurd hv ht
    · cases hc
      exact h
    · cases hc
      exact h

theorem ArrayStored.last {set : BkvVal → BkvVal} (h : ArrayStored m c)
    (hset : ∀ v, (set v).type = .array → (set v).u = .array (counts m (set v).priv))
    (hc : getLast set key c = .ok (r, c')) : ArrayStored m c' := by
  obtain ⟨last, -, hc⟩ := bind_ok hc
  split at hc <;> cases hc
  · exact .setVal _ hset
  · exact h

theorem ArrayStored.mapOpen {p : Nat} (h : ArrayStored m c)
    (hc : bkvValGetMapOpen p key c = .ok (r, c')) : ArrayStored m c' := by
  rw [bkvValGetMapOpen] at hc
  split at hc
  · cases hc
    exact ⟨h.fresh, h.stored⟩
  · have hset : ∀ c₁ : GetCtx, ArrayStored m (c₁.setVal fun v =>
        { v with type := .object, u := .object p, priv := p }) := fun c₁ => .setVal _ (by simp)
    obtain ⟨last, -, hc⟩ := bind_ok hc
    cases last with
    | none =>
      simp only [pure_ok, ok_bind] at hc
      split at hc <;> cases hc
      · exact hset c
      · exact h
    | some last =>
      simp only [pure_ok, ok_bind] at hc
      split at hc <;> cases hc
      · exact hset _
      · exact ⟨h.fresh, h.stored⟩

theorem ArrayStored.callback {e : Event} (h : ArrayStored m c) (he : e.Counted m)
    (hc : valGetCallbacks e c = .ok (r, c')) : ArrayStored m c' := by
  cases e with
  | mapOpen p key => exact h.mapOpen hc
  | mapClose key =>
    cases hc
    exact h
  | arrayOpen p len key =>
    rw [valGetCallbacks, bkvValGetArrayOpen] at hc
    split at hc
    · cases hc
      exact h
    · exact h.last (fun v _ => congrArg ValU.array he) hc
  | arrayClose =>
    cases hc
    exact h
  | uint16 p deep key v => exact h.number hc (by simp) (fun _ => rfl)
  | uint32 p deep key v => exact h.number hc (by simp) (fun _ => rfl)
  | uint64 p deep key v => exact h.number hc (by simp) (fun _ => rfl)
  | float p key f => exact h.number hc (by simp) (fun _ => rfl)
  | str p key str len => exact h.last (by simp) hc
  | double p key d => exact h.last (by simp) hc
  | boolean p key v => exact h.last (by simp) hc

/-- An array that a lookup returns has the count in the header of that array. -/
theorem get2_counts {v : BkvVal} {keys : Option (List UInt16)} {nb_val : Int}
    {val val' : Cells BkvVal} (h : bkvValGet2 z v keys nb_val val = .ok (bkvOk, val'))
    (ht : (val' 0).type = .array) : (val' 0).u = .array (counts z.mem (val' 0).priv) := by
  rw [bkvValGet2] at h
  split at h
  · cases h
  · obtain ⟨⟨r, c⟩, hf, h⟩ := bind_ok h
    obtain ⟨⟨r, p, c⟩, hl, hf⟩ := bind_ok hf
    cases hf
    have hc : ArrayStored z.mem c :=
      loop_keeps (fun e s r s' he hs hcb => ArrayStored.callback hs he hcb)
        ⟨fun _ => rfl, by simp⟩ hl
    dsimp only at h
    cases hset : c.valIsSet with
    | false =>
      rw [hset] at h
      cases h
    | true =>
      rw [hset] at h
      cases h
      exact hc.stored hset ht

end Lookup

/-- The count that callers see for the array behind `pre`: from the traversal, and from every lookup
that returns that array. -/
structure CountShown (h : Bkv) (pre : List Call) (n : Nat) : Prop where
  foreach : ∃ evs cnt key, Traverses h evs ∧
    evs[pre.length]? = some (.arrayOpen (widths pre) cnt key) ∧ cnt.toNat = n
  get2 : ∀ v keys nb_val val val',
    bkvValGet2 (bkvGetHead h) v keys nb_val val = .ok (bkvOk, val') → (val' 0).type = .array →
      (val' 0).priv = widths pre → ∃ cnt, (val' 0).u = .array cnt ∧ cnt.toNat = n

theorem Traverses.unique {h : Bkv} {evs evs' : List Event} (he : Traverses h evs)
    (he' : Traverses h evs') : evs = evs' := by
  obtain ⟨v, hv, hwalk⟩ := he
  obtain ⟨v', hv', hwalk'⟩ := he'
  rw [hv] at hv'
  cases hv'
  have hlast := (hwalk _ (fun l e => l ++ [e]) []).symm.trans (hwalk' _ (fun l e => l ++ [e]) [])
  simpa [← List.flatMap_def] using hlast

theorem callEvents_length (ck cn : Nat → UInt16) (deep : Int) (off : Nat) (cs : List Call) :
    (callEvents ck cn deep off cs).length = cs.length := by
  induction cs generalizing deep off with
  | nil => rfl
  | cons c cs ih => rw [callEvents, List.length_cons, List.length_cons, ih]

/-- The count of an array is its length exactly when the elements that were counted before at its
depth make up for those of its own that are not counted. -/
theorem count_shown_iff (env : Env) (h₀ h : Bkv) (root : UInt16) (body : Items)
    (hf : FreshRam env h₀) (hl : Legal .map body)
    (hr : runOk env h₀ (calls (.node (.map, root) body .nil)) = some h)
    (hsize : h.writeOffset ≤ 65535)
    (hk : ∀ k key, .opening k key ∈ calls (.node (.map, root) body .nil) → key ≤ 0xFFF)
    (pre : List Call) (key : UInt16) (arr : Items)
    (harr : Within (.node (.map, root) body .nil) pre (.node (.array, key) arr .nil))
    (hlen : elements arr < 65536) :
    CountShown h pre (elements arr) ↔
      tally (steps pre + 1) 0 pre % 65536 = uncounted arr % 65536 := by
  have hcounts := stored_counts hf hr harr
  have htotal := tally_elements (steps pre + 1) arr
  obtain ⟨hfit, hwritten, hin⟩ := document_laid hf hl hr
  have hdoc : HoldsDocument h (calls (.node (.map, root) body .nil)) :=
    ⟨root, body, hl, rfl, hfit, hwritten, hin⟩
  obtain ⟨htrav, -, -⟩ := hdoc.reads hsize hk
  obtain ⟨post, hpost⟩ := harr.split
  have hevent : (callEvents (closeKeys h.ptr) (counts h.ptr) 0 0
      (calls (.node (.map, root) body .nil)))[pre.length]? =
        some (.arrayOpen (widths pre) (counts h.ptr (widths pre)) key) := by
    rw [hpost, callEvents_append, List.getElem?_append_right (Nat.le_of_eq (callEvents_length ..)),
      callEvents_length, Nat.sub_self, calls_node, Nat.zero_add]
    rfl
  have hvalue : (counts h.ptr (widths pre)).toNat =
      (tally (steps pre + 1) 0 pre + tally (steps pre + 1) (steps pre + 1) (calls arr)) % 65536 := by
    rw [hcounts, UInt16.toNat_ofNat']
  have hiff : (counts h.ptr (widths pre)).toNat = elements arr ↔
      tally (steps pre + 1) 0 pre % 65536 = uncounted arr % 65536 := by
    rw [hvalue]
    omega
  rw [← hiff]
  constructor
  · rintro ⟨⟨evs, cnt, key', hevs, hcnt, hn⟩, -⟩
    rw [hevs.unique htrav, hevent] at hcnt
    cases hcnt
    exact hn
  · intro hcnt
    refine ⟨⟨_, _, _, htrav, hevent, hcnt⟩, ?_⟩
    intro v keys nb_val val val' hget ht hpriv
    have hstored := get2_counts hget ht
    rw [hpriv] at hstored
    exact ⟨counts h.ptr (widths pre), hstored, hcnt⟩

/-- Two arrays of one element each. -/
def twoArrays : Items :=
  .node (.array, 1) (.leaf (.elem (.u16 5)) .nil) (.node (.array, 2) (.leaf (.elem (.u16 6)) .nil) .nil)

theorem count_shown_first : ∃ h,
    runOk calmEnv ramHandle (calls (.node (.map, 0) twoArrays .nil)) = some h ∧
      (CountShown h [.opening .map 0] 1 ↔
        tally (steps [.opening .map 0] + 1) 0 [.opening .map 0] % 65536 =
          uncounted (.leaf (.elem (.u16 5)) .nil) % 65536) :=
  ⟨_, rfl, count_shown_iff calmEnv ramHandle _ 0 twoArrays ramHandle_fresh
    (by simp [twoArrays, Legal, Kind.holds, Entry.kind]) rfl (by decide)
    (by
      intro k key hc
      simp only [twoArrays, calls_node, calls_leaf, calls_nil, List.mem_cons, List.mem_append,
        Call.opening.injEq, reduceCtorEq, List.not_mem_nil, or_false, false_or] at hc
      rcases hc with ⟨-, rfl⟩ | ⟨-, rfl⟩ | ⟨-, rfl⟩ <;> decide)
    [.opening .map 0] 1 (.leaf (.elem (.u16 5)) .nil) (.inside (.map, 0) .nil (.here _ _ _))
    (by decide)⟩

/-- The second of two arrays counts the element of the first as well. -/
theorem second_array_counts_both : ∃ h val',
    runOk calmEnv ramHandle (calls (.node (.map, 0) twoArrays .nil)) = some h ∧
      bkvValGet2 (bkvGetHead h) ⟨.object, 0, .unset, 0, 0, 0⟩ (some [2, bkvKeyInvalid]) 1
        (fun _ => bkvValInitValue) = .ok (bkvOk, val') ∧ (val' 0).u = .array 2 ∧
      Within (.node (.map, 0) twoArrays .nil)
        (.opening .map 0 :: calls (.node (.array, 1) (.leaf (.elem (.u16 5)) .nil) .nil))
        (.node (.array, 2) (.leaf (.elem (.u16 6)) .nil) .nil) ∧
      ¬CountShown h (.opening .map 0 :: calls (.node (.array, 1) (.leaf (.elem (.u16 5)) .nil) .nil))
        (elements (.leaf (.elem (.u16 6)) .nil)) := by
  refine ⟨_, _, rfl, rfl, rfl, .inside (.map, 0) .nil (.behind (.array, 1) _ (.here _ _ _)), ?_⟩
  intro hx
  obtain ⟨cnt, hcnt, hn⟩ := hx.get2 ⟨.object, 0, .unset, 0, 0, 0⟩ (some [2, bkvKeyInvalid]) 1
    (fun _ => bkvValInitValue) _ rfl rfl rfl
  cases hcnt
  exact absurd hn (by decide)

end Wtools
