import Wtools.Decode

/-!
# Traversal of a document

The flat loop of `val_foreach`, with its byte cursor and one depth counter, against the
recursive walk of the document tree. The key given to `map_close` and the count given to
`array_open` are whatever the buffer holds there; they are the parameters `ck` and `cn`.
-/

namespace Wtools
open ByteMemory Forest

def scalarEvent (off : Nat) (deep : Int) (key : UInt16) : Scalar → Event
  | .u16 v => .uint16 off deep key v
  | .u32 v => .uint32 off deep key v
  | .u64 v => .uint64 off deep key v
  | .float v => .float (off + 2) key v
  | .double v => .double (off + 2) key (doubleStored v)
  | .boolean v => .boolean (off + 2) key v
  | .str s => .str (off + 4) key (off + 4) s.length
  | .wchar s => .str (off + 4) key (off + 4) (s.length * sizeofWchar)

def openEvent (off : Nat) (key cnt : UInt16) : Kind → Event
  | .map => .mapOpen off key
  | .array => .arrayOpen off cnt key

def closeEvent (key : UInt16) : Kind → Event
  | .map => .mapClose key
  | .array => .arrayClose

/-- The document tree with the invocations it calls for, when it lies at an offset. -/
def placed (ck cn : Nat → UInt16) : Int → Nat → Items → Forest (Event × Event) Event
  | _, _, .nil => .nil
  | deep, off, .leaf e rest =>
    .leaf (scalarEvent off deep e.key e.scalar) (placed ck cn deep (off + e.width) rest)
  | deep, off, .node l body rest =>
    .node (openEvent off l.2 (cn off) l.1, closeEvent (ck (off + l.1.openWidth + size body)) l.1)
      (placed ck cn (deep + 1) (off + l.1.openWidth) body)
      (placed ck cn deep (off + l.1.openWidth + size body + l.1.closeWidth) rest)

theorem placed_append (ck cn : Nat → UInt16) (deep : Int) (off : Nat) (f g : Items) :
    placed ck cn deep off (f ++ g) = placed ck cn deep off f ++ placed ck cn deep (off + size f) g := by
  induction f generalizing off with
  | nil => rfl
  | leaf e rest ih => simp [placed, size, ih, Nat.add_assoc]
  | node l body rest _ ih => simp [placed, size, ih, Nat.add_assoc]

def Event.isMapOpen : Event → Bool
  | .mapOpen _ _ => true
  | _ => false

/-- Only `map_open` can leave something out. -/
def skips (e : Event) (l_ret : UInt32) : Bool := e.isMapOpen && l_ret &&& actionGotoEndMap ≠ 0

/-- A callback as a visitor. -/
def visit {σ : Type} (cb : Callbacks σ) (e : Event) (s : σ) : Except Fault (Ask × σ) :=
  (cb e s).map fun p => (⟨skips e p.1, p.1 &&& actionStopLoop ≠ 0⟩, p.2)

/-- A call whose key and string length fit the header. -/
def Call.Fits : Call → Prop
  | .opening _ key => key ≤ 0xFFF
  | .closing _ => True
  | .add e => e.key ≤ 0xFFF ∧ e.scalar.strLen ≤ 65535

/-- The key bytes of the close records and the counts of the arrays in a memory. -/
def closeKeys (m : Mem) (off : Nat) : UInt16 := hdrKey (m off) (m (off + 1))

def counts (m : Mem) (off : Nat) : UInt16 := le16ToCpu (m (off + 4)) (m (off + 5))

variable {σ : Type} {z : Zone} {cb : Callbacks σ} {off : Nat} {deep : Int}

theorem turn_entry {e : Entry} (h : ByteMemory.Fits z.mem off e.pattern)
    (hz : off + e.width ≤ z.size) (hf : (Call.add e).Fits) (s : σ) :
    turn z cb off deep s = cb (scalarEvent off deep e.key e.scalar) s >>= fun p =>
      .ok (.go p.1 (off + e.width) deep p.2) := by
  obtain ⟨hk, hl⟩ := hf
  rw [Entry.pattern, fits_append, fits_known, Entry.bytes, holds_append, setKey_length] at h
  obtain ⟨⟨hh, hp⟩, -⟩ := h
  rw [Entry.width, Entry.bytes, List.length_append, setKey_length] at hz ⊢
  obtain ⟨b0, b1, h0, h1, ht, hkey⟩ := read_header hh (by omega) hk
  cases hv : e.scalar <;> rw [hv] at hp hz ht hl <;>
    simp only [Scalar.hdrType, Scalar.payload, Scalar.gap, Scalar.strLen] at ht hp hz hl ⊢ <;>
    simp only [turn, h0, h1, ok_bind, ht, hkey, scalarEvent]
  · rw [hdrSize, read16_holds hp (by simpa using hz)]
    rfl
  · rw [hdrSize, read32_holds hp (by simpa using hz)]
    rfl
  · rw [hdrSize, read64_holds hp (by simpa using hz)]
    rfl
  · rw [hdrSize, readFloat_holds hp (by simpa using hz)]
    rfl
  · rw [hdrSize, readDouble_holds hp (by simpa using hz)]
    rfl
  · rename_i v
    rw [hdrSize, readByte_of_lt (by simp at hz; omega), (holds_cons.mp hp).1]
    cases v <;> rfl
  · rename_i str
    rw [holds_append] at hp
    simp only [List.length_append, cpuToLe16_length] at hz ⊢
    rw [hdrSize, read16_holds hp.1 (by omega)]
    simp only [ok_bind, UInt16.toNat_ofNat', Nat.mod_eq_of_lt (show str.length < 2 ^ 16 by omega),
      Nat.add_assoc, pure_ok]
    rfl
  · rename_i str
    rw [holds_append] at hp
    have hw : ((wcharBytes str).take str.length).length = str.length := by
      rw [List.length_take, wcharBytes_length]
      omega
    have hmod : str.length * sizeofWchar % 2 ^ 16 = str.length * sizeofWchar :=
      Nat.mod_eq_of_lt (by omega)
    simp only [List.length_append, cpuToLe16_length, hw] at hz ⊢
    rw [hdrSize, read16_holds hp.1 (by omega)]
    simp only [ok_bind, UInt16.toNat_ofNat', hmod, pure_ok]
    rw [show off + 2 + 2 + str.length * sizeofWchar =
      off + (2 + (2 + str.length) + 3 * str.length) by rw [sizeofWchar]; omega]

/-- A callback that never leaves a map out. -/
def NoSkip (cb : Callbacks σ) : Prop :=
  ∀ off key s r s', cb (.mapOpen off key) s = .ok (r, s') → r &&& actionGotoEndMap = 0

/-- The turn on the header of a container; `n` is the length stored there. -/
theorem turn_open {k : Kind} {key : UInt16} {n : Nat}
    (h : ByteMemory.Fits z.mem off (k.header key n))
    (hz : off + k.openWidth ≤ z.size) (hk : key ≤ 0xFFF) (hn : 0 < n) {s : σ}
    (hl : n ≤ 65535 ∨ ∀ r s', cb (.mapOpen off key) s = .ok (r, s') → r &&& actionGotoEndMap = 0) :
    turn z cb off deep s = cb (openEvent off key (counts z.mem off) k) s >>= fun p =>
      .ok (if skips (openEvent off key (counts z.mem off) k) p.1 then .go p.1 (off + n) deep p.2
        else .go p.1 (off + k.openWidth) (deep + 1) p.2) := by
  rw [Kind.header, fits_append, fits_known, holds_append, setKey_length] at h
  obtain ⟨⟨hh, hlen⟩, -⟩ := h
  have hw : 4 ≤ k.openWidth := by cases k <;> decide
  obtain ⟨b0, b1, h0, h1, ht, hkey⟩ := read_header hh (by omega) hk
  simp only [turn, h0, h1, ok_bind, ht, hkey]
  cases k with
  | map =>
    simp only [Kind.openType, openEvent]
    cases hc : cb (.mapOpen off key) s with
    | error x => rfl
    | ok p =>
      obtain ⟨r, s'⟩ := p
      simp only [ok_bind, pure_ok]
      by_cases hr : r &&& actionGotoEndMap = 0
      · simp [skips, Event.isMapOpen, hr, hdrSize, mapOpenValueSize, Kind.openWidth]
      · have hn' : n ≤ 65535 := hl.resolve_right fun hg => hr (hg r s' hc)
        have hmod : (UInt16.ofNat n).toNat = n := by
          rw [UInt16.toNat_ofNat', Nat.mod_eq_of_lt (by omega)]
        have hne : UInt16.ofNat n ≠ 0 := by
          intro hzero
          rw [hzero] at hmod
          simp at hmod
          omega
        simp [skips, Event.isMapOpen, hr, read16_holds hlen (by omega), hne, hmod]
  | array =>
    simp only [Kind.openWidth] at hz
    simp only [Kind.openType, openEvent, skips, Event.isMapOpen, Bool.false_and, Bool.false_eq_true,
      if_false, read16, hdrSize, Nat.add_assoc,
      readByte_of_lt (show off + (2 + 2) < z.size by omega),
      readByte_of_lt (show off + (2 + (2 + 1)) < z.size by omega), ok_bind, pure_ok]
    rfl

/-- The turn on a close record; the map that brings the depth back to 0 ends the loop. -/
theorem turn_close {k : Kind} (h : ByteMemory.Fits z.mem off k.closePattern)
    (hz : off + k.closeWidth ≤ z.size) {s : σ} : turn z cb off deep s =
      cb (closeEvent (closeKeys z.mem off) k) s >>= fun p =>
        .ok (.go (if k = .map ∧ deep - 1 = 0 then actionStopLoop else p.1) (off + k.closeWidth)
          (deep - 1) p.2) := by
  have ht : HeaderType.ofCode (hdrNibble (z.mem off)) = some k.closeType := by
    cases k <;>
    · rw [h.1]
      decide
  have hw : 2 ≤ k.closeWidth := by cases k <;> decide
  simp only [turn, readByte_of_lt (show off < z.size by omega),
    readByte_of_lt (show off + 1 < z.size by omega), ok_bind, ht]
  cases k <;> simp only [Kind.closeType, reduceCtorEq, false_and, true_and, if_false] <;> rfl

/-- What the loop does when the traversal of a part of the document came to an end: it has
failed, or stopped with the same data, or goes on with `k`. -/
def Follows (r : Except Fault (Int × Nat × σ)) (o : Outcome Fault σ)
    (k : σ → Except Fault (Int × Nat × σ)) : Prop :=
  match o with
  | .error x => r = .error x
  | .ok (true, s) => ∃ p, r = .ok (bkvOk, p, s)
  | .ok (false, s) => r = k s

theorem Follows.next {r : Except Fault (Int × Nat × σ)} {o : Outcome Fault σ}
    {k k' : σ → Except Fault (Int × Nat × σ)} {g : σ → Outcome Fault σ} (h : Follows r o k)
    (hg : ∀ s, Follows (k s) (g s) k') : Follows r (o.next g) k' := by
  rcases o with x | ⟨_ | _, s⟩
  · exact h
  · replace h : r = k s := h
    rw [h]
    exact hg s
  · exact h

theorem follows_visit {base off' : Nat} {deep' : Int} {e : Event} {s : σ}
    (ht : turn z cb off deep s = cb e s >>= fun p => .ok (.go p.1 off' deep' p.2))
    (hb : beyond base off') :
    Follows (loopAt z cb base off deep s) (visited (visit cb e s)) (loopAt z cb base off' deep') := by
  rw [loopAt_eq, ht, visit]
  cases hc : cb e s with
  | error x => rfl
  | ok p =>
    obtain ⟨r, s'⟩ := p
    by_cases hr : r &&& actionStopLoop = 0
    · simp [Except.map, Follows, hr, hb]
    · simp [Except.map, Follows, hr]

theorem follows_enter {base offIn offOut : Nat} {deepIn : Int} {e : Event} {s : σ}
    {inside after : σ → Outcome Fault σ} {k : σ → Except Fault (Int × Nat × σ)}
    (ht : turn z cb off deep s = cb e s >>= fun p =>
      .ok (if skips e p.1 then .go p.1 offOut deep p.2 else .go p.1 offIn deepIn p.2))
    (hin : beyond base offIn) (hout : beyond base offOut)
    (hi : ∀ s, Follows (loopAt z cb base offIn deepIn s) (inside s) k)
    (ha : ∀ s, Follows (loopAt z cb base offOut deep s) (after s) k) :
    Follows (loopAt z cb base off deep s) (enter (visit cb e s) inside after) k := by
  rw [loopAt_eq, ht, visit]
  cases hc : cb e s with
  | error x => rfl
  | ok p =>
    obtain ⟨r, s'⟩ := p
    cases hg : skips e r <;> by_cases hr : r &&& actionStopLoop = 0
    · simpa [Except.map, enter, hg, hr, hin] using hi s'
    · simp [Except.map, enter, hg, hr, Follows]
    · simpa [Except.map, enter, hg, hr, hout] using ha s'
    · simp [Except.map, enter, hg, hr, Follows]

theorem beyond_of_lt (base : Nat) {e : Nat} (h : base < e) (hb : e < base + 2 ^ 31) :
    beyond base e := by
  have hmod : ((e : Int) - base).bmod (2 ^ 32) = e - base :=
    Int.bmod_eq_of_le (by omega) (by omega)
  rw [beyond, hmod]
  exact decide_eq_true (by omega)

theorem width_pos (e : Entry) : 0 < e.width := by
  rw [Entry.width, Entry.bytes, List.length_append, setKey_length]
  omega

/-- The loop over the contents of a container is the walk of its subtrees. -/
theorem loop_follows {base : Nat} {f : Items} (hd : 0 < deep)
    (hfit : ByteMemory.Fits z.mem off (enc f)) (hz : off + size f ≤ z.size) (hoff : base < off)
    (hbase : z.size < base + 2 ^ 31) (hcs : ∀ c ∈ calls f, c.Fits) (hs : size f ≤ 65535 ∨ NoSkip cb)
    (s : σ) :
    Follows (loopAt z cb base off deep s)
      ((placed (closeKeys z.mem) (counts z.mem) deep off f).walk (visit cb) s)
      (loopAt z cb base (off + size f) deep) := by
  induction f generalizing deep off s with
  | nil => exact rfl
  | leaf e rest ih =>
    rw [fits_leaf] at hfit
    rw [calls_leaf, List.forall_mem_cons] at hcs
    rw [size] at hz hs ⊢
    have hw := width_pos e
    rw [placed, walk, ← Nat.add_assoc]
    refine (follows_visit (turn_entry hfit.1 (by omega) hcs.1 s)
      (beyond_of_lt base (by omega) (by omega))).next fun s' => ?_
    exact ih hd hfit.2 (by omega) (by omega) hcs.2 (hs.imp_left (by omega)) s'
  | node l body rest ihb ih =>
    obtain ⟨k, key⟩ := l
    obtain ⟨hh, hb, hc, hrest⟩ := fits_node.mp hfit
    simp only [calls_node, List.forall_mem_cons, List.forall_mem_append] at hcs
    obtain ⟨hkey, hcb, -, hcr⟩ := hcs
    rw [size] at hz hs ⊢
    dsimp only at hz hs ⊢
    rw [placed, walk]
    dsimp only
    have hafter : ∀ s', Follows
        (loopAt z cb base (off + k.openWidth + size body + k.closeWidth) deep s')
        ((placed (closeKeys z.mem) (counts z.mem) deep
          (off + k.openWidth + size body + k.closeWidth) rest).walk (visit cb) s')
        (loopAt z cb base (off + (k.openWidth + size body + k.closeWidth + size rest)) deep) := by
      intro s'
      rw [show off + (k.openWidth + size body + k.closeWidth + size rest) =
        off + k.openWidth + size body + k.closeWidth + size rest by omega]
      exact ih hd hrest (by omega) (by omega) hcr (hs.imp_left (by omega)) s'
    have hclose : ∀ s', Follows (loopAt z cb base (off + k.openWidth + size body) (deep + 1) s')
        (visited (visit cb (closeEvent (closeKeys z.mem (off + k.openWidth + size body)) k) s'))
        (loopAt z cb base (off + k.openWidth + size body + k.closeWidth) deep) := by
      intro s'
      have hdeep : deep + 1 - 1 = deep := by omega
      have hne : ¬ (k = .map ∧ deep = 0) := by omega
      refine follows_visit ?_ (beyond_of_lt base (by omega) (by omega))
      rw [turn_close hc (by omega), hdeep]
      simp only [hne, if_false]
    have hinside : ∀ s', Follows (loopAt z cb base (off + k.openWidth) (deep + 1) s')
        (((placed (closeKeys z.mem) (counts z.mem) (deep + 1) (off + k.openWidth) body).walk
          (visit cb) s').next fun s₂ => (visited (visit cb (closeEvent (closeKeys z.mem
            (off + k.openWidth + size body)) k) s₂)).next
            ((placed (closeKeys z.mem) (counts z.mem) deep
              (off + k.openWidth + size body + k.closeWidth) rest).walk (visit cb)))
        (loopAt z cb base (off + (k.openWidth + size body + k.closeWidth + size rest)) deep) := by
      intro s'
      exact (ihb (by omega) hb (by omega) (by omega) hcb (hs.imp_left (by omega)) s').next
        fun s₂ => (hclose s₂).next hafter
    have hout : beyond base (off + k.openWidth + size body + k.closeWidth) :=
      beyond_of_lt base (by omega) (by omega)
    have hin : beyond base (off + k.openWidth) := beyond_of_lt base (by omega) (by omega)
    refine follows_enter ?_ hin hout hinside hafter
    have hw : 0 < k.openWidth := by cases k <;> decide
    rw [turn_open hh (by omega) hkey (by omega)
      (hs.imp (by omega) fun hns r s' => hns off key s r s')]
    simp only [Nat.add_assoc]

/-- The loop from the header of a map, unless that map is left out: its contents, and then
its close record, which ends the loop. -/
theorem root_follows {v : BkvVal} {key : UInt16} {body : Items} {s : σ} (hv : v.priv = off)
    (hfit : ByteMemory.Fits z.mem off (enc (.node (.map, key) body .nil)))
    (hz : off + size (.node (.map, key) body .nil) ≤ z.size) (hbase : z.size < off + 2 ^ 31)
    (hcs : ∀ c ∈ calls (.node (.map, key) body .nil), c.Fits) (hs : size body ≤ 65535 ∨ NoSkip cb)
    (hroot : ∀ r s', cb (.mapOpen off key) s = .ok (r, s') → r &&& actionGotoEndMap = 0) :
    Follows (valForeachPtr z v cb s)
      ((visited (visit cb (.mapOpen off key) s)).next
        ((placed (closeKeys z.mem) (counts z.mem) 1 (off + 4) body).walk (visit cb)))
      fun s₂ => (cb (.mapClose (closeKeys z.mem (off + 4 + size body))) s₂).map fun p =>
        (bkvOk, off + size (.node (.map, key) body .nil), p.2) := by
  obtain ⟨hh, hb, hc, -⟩ := fits_node.mp hfit
  simp only [calls_node, List.forall_mem_cons, List.forall_mem_append] at hcs
  obtain ⟨hkey, hcb, -⟩ := hcs
  simp only [size, Kind.openWidth, Kind.closeWidth] at hz hh hb hc ⊢
  have hopen : turn z cb off 0 s = cb (.mapOpen off key) s >>= fun p =>
      .ok (.go p.1 (off + 4) 1 p.2) := by
    rw [turn_open hh (by simp only [Kind.openWidth]; omega) hkey (by omega) (.inr hroot)]
    simp only [openEvent]
    cases hr : cb (.mapOpen off key) s with
    | error x => rfl
    | ok p =>
      have hp := hroot p.1 p.2 hr
      simp [skips, hp, Kind.openWidth]
  have hclose : ∀ s₂, loopAt z cb off (off + 4 + size body) 1 s₂ =
      (cb (.mapClose (closeKeys z.mem (off + 4 + size body))) s₂).map fun p =>
        (bkvOk, off + (4 + size body + 2 + 0), p.2) := by
    intro s₂
    rw [loopAt_eq, turn_close hc (by simp only [Kind.closeWidth]; omega)]
    simp only [closeEvent, true_and, Int.sub_self, if_true, Kind.closeWidth]
    cases cb (.mapClose (closeKeys z.mem (off + 4 + size body))) s₂ with
    | error x => rfl
    | ok p => simp [Except.map, actionStopLoop, Nat.add_assoc]
  rw [valForeachPtr_eq, hv]
  refine (follows_visit hopen (beyond_of_lt off (by omega) (by omega))).next fun s₁ => ?_
  rw [← funext hclose]
  exact loop_follows (by decide) hb (by omega) (by omega) hbase hcb hs s₁

theorem Follows.outcome {r : Except Fault (Int × Nat × σ)} {o : Outcome Fault σ}
    {k : σ → Except Fault (Int × Nat × σ)} {g : σ → Outcome Fault σ} (h : Follows r o k)
    (hg : ∀ s, (k s).map (fun p => (p.1, p.2.2)) = (g s).map fun p => (bkvOk, p.2)) :
    r.map (fun p => (p.1, p.2.2)) = (o.next g).map fun p => (bkvOk, p.2) := by
  rcases o with x | ⟨_ | _, s⟩
  · replace h : r = .error x := h
    rw [h]
    rfl
  · replace h : r = k s := h
    rw [h]
    exact hg s
  · obtain ⟨p, hp⟩ := h
    rw [hp]
    rfl

/-- `bkv_val_foreach` on a map that is not left out is the walk of its tree. -/
theorem valForeach_eq_walk {v : BkvVal} {key : UInt16} {body : Items} {s : σ} (hv : v.priv = off)
    (hfit : ByteMemory.Fits z.mem off (enc (.node (.map, key) body .nil)))
    (hz : off + size (.node (.map, key) body .nil) ≤ z.size) (hbase : z.size < off + 2 ^ 31)
    (hcs : ∀ c ∈ calls (.node (.map, key) body .nil), c.Fits) (hs : size body ≤ 65535 ∨ NoSkip cb)
    (hroot : ∀ r s', cb (.mapOpen off key) s = .ok (r, s') → r &&& actionGotoEndMap = 0) :
    valForeach z v cb s =
      ((placed (closeKeys z.mem) (counts z.mem) 0 off (.node (.map, key) body .nil)).walk
        (visit cb) s).map fun p => (bkvOk, p.2) := by
  have hf := root_follows hv hfit hz hbase hcs hs hroot
  have ho := hf.outcome (g := fun s₂ => visited (visit cb
    (.mapClose (closeKeys z.mem (off + 4 + size body))) s₂)) fun s₂ => by
      rw [visit]
      cases cb (.mapClose (closeKeys z.mem (off + 4 + size body))) s₂ <;> rfl
  have hval : valForeach z v cb s = (valForeachPtr z v cb s).map fun p => (p.1, p.2.2) := by
    rw [valForeach]
    cases valForeachPtr z v cb s <;> rfl
  have hkept : ∀ a s', visit cb (.mapOpen off key) s = .ok (a, s') → a.skip = false := by
    intro a s' hvis
    rw [visit] at hvis
    cases hr : cb (.mapOpen off key) s with
    | error x =>
      rw [hr] at hvis
      cases hvis
    | ok p =>
      rw [hr] at hvis
      cases hvis
      simp [skips, hroot p.1 p.2 hr]
  rw [hval, ho, placed, walk]
  simp only [openEvent, closeEvent, Kind.openWidth, placed, walk_nil, Outcome.next_done]
  rw [enter_kept hkept, Outcome.next_assoc]
  rfl

theorem strLen_le_width (e : Entry) : e.scalar.strLen ≤ e.width := by
  by_cases hv : e.scalar.hdrType = .string
  · rw [Entry.width, Entry.bytes]
    cases hs : e.scalar with
    | str str =>
      simp only [Scalar.strLen, Scalar.payload, Scalar.gap, List.length_append, cpuToLe16_length]
      omega
    | wchar str =>
      simp only [Scalar.strLen, Scalar.payload, Scalar.gap, List.length_append, List.length_take,
        setKey_length, cpuToLe16_length, wcharBytes_length, sizeofWchar]
      omega
    | _ => simp [Scalar.strLen]
  · rw [strLen_of_ne hv]
    exact Nat.zero_le _

theorem width_le_size {f : Items} {e : Entry} (h : .add e ∈ calls f) : e.width ≤ size f := by
  induction f with
  | nil => simp at h
  | leaf a rest ih =>
    rw [calls_leaf, List.mem_cons] at h
    rw [size]
    rcases h with h | h
    · cases h
      omega
    · have := ih h
      omega
  | node l body rest ihb ih =>
    rw [calls_node, List.mem_cons, List.mem_append, List.mem_cons] at h
    rw [size]
    rcases h with h | h | h | h
    · cases h
    · have := ihb h
      omega
    · cases h
    · have := ih h
      omega

/-- In a document of at most 65535 bytes only the keys of the containers can be too large. -/
theorem calls_fit {f : Items} (hsize : size f ≤ 65535) (hr : ∀ c ∈ calls f, c.inRange)
    (hk : ∀ k key, .opening k key ∈ calls f → key ≤ 0xFFF) : ∀ c ∈ calls f, c.Fits := by
  intro c hc
  cases c with
  | opening k key => exact hk k key hc
  | closing k => trivial
  | add e =>
    have h₁ := strLen_le_width e
    have h₂ := width_le_size hc
    exact ⟨key_of_inRange (hr _ hc), by omega⟩

theorem bkvValInit_map {key : UInt16} {body : Items}
    (hfit : ByteMemory.Fits z.mem off (enc (.node (.map, key) body .nil)))
    (hz : off + size (.node (.map, key) body .nil) ≤ z.size) (hk : key ≤ 0xFFF) (p_val : BkvVal) :
    bkvValInit z p_val off = .ok (bkvOk, { p_val with type := .object, key := key, priv := off }) := by
  simp only [enc, Kind.header, fits_append, fits_known, holds_append, setKey_length] at hfit
  simp only [size, Kind.openWidth] at hz
  obtain ⟨b0, b1, h0, h1, ht, hkey⟩ := read_header hfit.1.1.1 (by omega) hk
  simp only [bkvValInit, h0, h1, ok_bind, ht, hkey, Kind.openType]
  rfl

/-- The recursive walk of a document tree that starts at offset 0. -/
def documentWalk (ck cn : Nat → UInt16) (t : Items) (cb : Callbacks σ) (p_data : σ) :
    Except Fault (Int × σ) :=
  ((placed ck cn 0 0 t).walk (visit cb) p_data).map fun p => (bkvOk, p.2)

/-- On a document written through the API, of at most 65535 bytes, `bkv_val_foreach` is the
walk of the document tree, for all callbacks that do not leave the root out. A double is
walked with the value that was stored. -/
theorem foreach_refines_walk (env : Env) (h₀ h : Bkv) (cs : List Call) (hf : FreshRam env h₀)
    (hr : runOk env h₀ cs = some h) (ht : h.state = .term) (hsize : h.writeOffset ≤ 65535)
    (hk : ∀ k key, .opening k key ∈ cs → key ≤ 0xFFF) :
    ∃ key body ck cn v, calls (.node (.map, key) body .nil) = cs ∧ Legal .map body ∧
      bkvValInit (bkvGetHead h) bkvValInitValue 0 = .ok (bkvOk, v) ∧
      ∀ (σ : Type) (cb : Callbacks σ) (s : σ),
        (∀ s r s', cb (.mapOpen 0 key) s = .ok (r, s') → r &&& actionGotoEndMap = 0) →
        bkvValForeach (bkvGetHead h) v cb s =
          documentWalk ck cn (.node (.map, key) body .nil) cb s := by
  obtain ⟨hin, key, body, hl, rfl, hfit, hw⟩ := closed_layout hf hr ht
  have hz : 0 + size (.node (.map, key) body .nil) ≤ (bkvGetHead h).size := by
    rw [← hw, Nat.zero_add]
    exact Nat.le_refl _
  have hfits := calls_fit (hw ▸ hsize) hin hk
  have hbody : size body ≤ 65535 := by
    rw [size] at hw
    omega
  have hkey : key ≤ 0xFFF := hk .map key (by simp)
  refine ⟨key, body, closeKeys h.ptr, counts h.ptr, _, rfl, hl, bkvValInit_map hfit hz hkey _,
    fun σ cb s hroot => ?_⟩
  refine valForeach_eq_walk rfl hfit hz ?_ hfits (.inl hbody) (hroot s)
  change h.writeOffset < _
  omega

theorem foreach_refines_walk_nested :
    ∃ h, runOk calmEnv ramHandle [.opening .map 1, .opening .map 2, .add (.keyed 3 (.u16 4)),
      .closing .map, .closing .map] = some h ∧
    ∃ key body ck cn v, calls (.node (.map, key) body .nil) = [.opening .map 1, .opening .map 2,
        .add (.keyed 3 (.u16 4)), .closing .map, .closing .map] ∧ Legal .map body ∧
      bkvValInit (bkvGetHead h) bkvValInitValue 0 = .ok (bkvOk, v) ∧
      ∀ (σ : Type) (cb : Callbacks σ) (s : σ),
        (∀ s r s', cb (.mapOpen 0 key) s = .ok (r, s') → r &&& actionGotoEndMap = 0) →
        bkvValForeach (bkvGetHead h) v cb s =
          documentWalk ck cn (.node (.map, key) body .nil) cb s :=
  ⟨_, rfl, foreach_refines_walk calmEnv ramHandle _ _ ramHandle_fresh rfl rfl (by decide)
    (by simp only [List.mem_cons, Call.opening.injEq, reduceCtorEq, List.not_mem_nil,
      or_false]; rintro k key (⟨-, rfl⟩ | ⟨-, rfl⟩) <;> decide)⟩

end Wtools
