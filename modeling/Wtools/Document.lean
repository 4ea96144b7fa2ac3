import Wtools.Writer
import Wtools.Library.RoseForest

/-!
# Documents

What the writer is for: a document is a map whose contents are keyed scalars, maps and
arrays. A document is kept as the forest of its contents and spelled as the sequence of
the writer calls that make it. A position is a document under construction, and
`advance` moves it by one call, so the positions are the states of a recognizer of the
prefixes of documents.
-/

namespace Wtools
open Forest

/-- The contents of a container. -/
abbrev Items := Forest (Kind × UInt16) Entry

def Entry.kind : Entry → Kind
  | .keyed _ _ => .map
  | .elem _ => .array

def callOf : Token (Kind × UInt16) Entry → Call
  | .opening l => .opening l.1 l.2
  | .closing l => .closing l.1
  | .leaf e => .add e

/-- The calls that write the contents of a container. -/
def calls (f : Items) : List Call := f.tokens.map callOf

@[simp] theorem calls_nil : calls .nil = [] := rfl

@[simp] theorem calls_leaf (e : Entry) (rest : Items) :
    calls (.leaf e rest) = .add e :: calls rest :=
  rfl

@[simp] theorem calls_node (k : Kind) (key : UInt16) (body rest : Items) :
    calls (.node (k, key) body rest) =
      .opening k key :: (calls body ++ .closing k :: calls rest) := by
  simp [calls, tokens, callOf]

@[simp] theorem calls_append (f g : Items) : calls (f ++ g) = calls f ++ calls g := by
  simp [calls]

theorem callOf_readable : Token.Readable callOf where
  opening := by
    rintro ⟨k, key⟩ ⟨k', key'⟩ h
    cases h
    rfl
  leaf := by
    intro e e' h
    cases h
    rfl
  opening_ne_leaf := by simp [callOf]
  opening_ne_closing := by simp [callOf]
  leaf_ne_closing := by simp [callOf]

theorem calls_injective {f g : Items} (h : calls f = calls g) : f = g :=
  spelling_injective callOf_readable h

/-- Which containers a container may hold. -/
def Kind.holds : Kind → Kind → Bool
  | .array, .array => false
  | _, _ => true

/-- Contents that fit their container: keyed scalars in maps, elements in arrays, and no
array directly in an array. -/
def Legal : Kind → Items → Prop
  | _, .nil => True
  | k, .leaf e rest => e.kind = k ∧ Legal k rest
  | k, .node l body rest => k.holds l.1 ∧ Legal l.1 body ∧ Legal k rest

theorem Legal.append {k : Kind} {f g : Items} (hf : Legal k f) (hg : Legal k g) :
    Legal k (f ++ g) := by
  induction f with
  | nil => exact hg
  | leaf e rest ih => exact ⟨hf.1, ih hf.2⟩
  | node l body rest _ ih => exact ⟨hf.1, hf.2.1, ih hf.2.2⟩

theorem legal_map {body : Items} (k : Kind) (key : UInt16) (hb : Legal .map body) :
    Legal k (.node (.map, key) body .nil) := by
  refine ⟨?_, hb, trivial⟩
  cases k <;> rfl

/-- The words of the document grammar for the contents of a container. -/
inductive Words : Kind → List Call → Prop
  | nil (k : Kind) : Words k []
  | keyed (key : UInt16) (v : Scalar) {cs : List Call} :
      Words .map cs → Words .map (.add (.keyed key v) :: cs)
  | elem (v : Elem) {cs : List Call} : Words .array cs → Words .array (.add (.elem v) :: cs)
  | map (k : Kind) (key : UInt16) {body cs : List Call} : Words .map body → Words k cs →
      Words k (.opening .map key :: (body ++ .closing .map :: cs))
  | array (key : UInt16) {body cs : List Call} : Words .array body → Words .map cs →
      Words .map (.opening .array key :: (body ++ .closing .array :: cs))

/-- `Doc ::= MapOpen Entry* MapClose` -/
def IsDoc (cs : List Call) : Prop :=
  ∃ key body, Words .map body ∧ cs = .opening .map key :: (body ++ [.closing .map])

def IsPrefix (cs : List Call) : Prop := ∃ rest, IsDoc (cs ++ rest)

/-- The grammar spells the legal contents. -/
theorem words_iff {k : Kind} {cs : List Call} : Words k cs ↔ ∃ f, Legal k f ∧ calls f = cs := by
  constructor
  · intro h
    induction h with
    | nil k => exact ⟨.nil, trivial, rfl⟩
    | keyed key v _ ih =>
      obtain ⟨f, hf, rfl⟩ := ih
      exact ⟨.leaf (.keyed key v) f, ⟨rfl, hf⟩, rfl⟩
    | elem v _ ih =>
      obtain ⟨f, hf, rfl⟩ := ih
      exact ⟨.leaf (.elem v) f, ⟨rfl, hf⟩, rfl⟩
    | map k key _ _ ihb ih =>
      obtain ⟨b, hb, rfl⟩ := ihb
      obtain ⟨f, hf, rfl⟩ := ih
      exact ⟨.node (.map, key) b f, ⟨by cases k <;> rfl, hb, hf⟩, calls_node ..⟩
    | array key _ _ ihb ih =>
      obtain ⟨b, hb, rfl⟩ := ihb
      obtain ⟨f, hf, rfl⟩ := ih
      exact ⟨.node (.array, key) b f, ⟨rfl, hb, hf⟩, calls_node ..⟩
  · rintro ⟨f, hf, rfl⟩
    induction f generalizing k with
    | nil => exact .nil k
    | leaf e rest ih =>
      obtain ⟨rfl, hrest⟩ := hf
      cases e with
      | keyed key v => exact .keyed key v (ih hrest)
      | elem v => exact .elem v (ih hrest)
    | node l body rest ihb ih =>
      obtain ⟨c, key⟩ := l
      obtain ⟨hk, hb, hrest⟩ := hf
      rw [calls_node]
      cases c with
      | map => exact .map k key (ihb hb) (ih hrest)
      | array =>
        cases k with
        | map => exact .array key (ihb hb) (ih hrest)
        | array => cases hk

/-- An open container: what was given to its opening call and its contents so far. -/
structure Frame where
  kind : Kind
  key : UInt16
  done : Items

def Frame.put (fr : Frame) (f : Items) : Frame := { fr with done := fr.done ++ f }

@[simp] theorem Frame.put_kind (fr : Frame) (f : Items) : (fr.put f).kind = fr.kind := rfl

@[simp] theorem Frame.put_key (fr : Frame) (f : Items) : (fr.put f).key = fr.key := rfl

@[simp] theorem Frame.put_done (fr : Frame) (f : Items) : (fr.put f).done = fr.done ++ f := rfl

theorem Frame.put_put (fr : Frame) (f g : Items) : (fr.put f).put g = fr.put (f ++ g) := by
  simp [Frame.put, append_assoc]

def Frame.closed (fr : Frame) : Items := .node (fr.kind, fr.key) fr.done .nil

/-- A document under construction; the open containers are listed from the innermost. -/
inductive Position where
  | start
  | inside (fr : Frame) (outer : List Frame)
  | complete (key : UInt16) (body : Items)

def Position.frames : Position → List Frame
  | .inside fr outer => fr :: outer
  | _ => []

def advance : Position → Call → Option Position
  | .start, .opening .map key => some (.inside ⟨.map, key, .nil⟩ [])
  | .inside fr outer, .opening k key =>
    if fr.kind.holds k then some (.inside ⟨k, key, .nil⟩ (fr :: outer)) else none
  | .inside fr [], .closing k =>
    if k = fr.kind then some (.complete fr.key fr.done) else none
  | .inside fr (o :: outer), .closing k =>
    if k = fr.kind then some (.inside (o.put fr.closed) outer) else none
  | .inside fr outer, .add e =>
    if e.kind = fr.kind then some (.inside (fr.put (.leaf e .nil)) outer) else none
  | _, _ => none

/-- The moves of `advance`, one constructor for each way a document can grow. -/
inductive Move : Position → Call → Position → Prop
  | root (key : UInt16) : Move .start (.opening .map key) (.inside ⟨.map, key, .nil⟩ [])
  | opening {fr : Frame} {outer : List Frame} {k : Kind} (key : UInt16) (hk : fr.kind.holds k) :
      Move (.inside fr outer) (.opening k key) (.inside ⟨k, key, .nil⟩ (fr :: outer))
  | closeRoot (fr : Frame) : Move (.inside fr []) (.closing fr.kind) (.complete fr.key fr.done)
  | closing (fr o : Frame) (outer : List Frame) :
      Move (.inside fr (o :: outer)) (.closing fr.kind) (.inside (o.put fr.closed) outer)
  | add {fr : Frame} {outer : List Frame} {e : Entry} (he : e.kind = fr.kind) :
      Move (.inside fr outer) (.add e) (.inside (fr.put (.leaf e .nil)) outer)

theorem advance_eq_some {p p' : Position} {c : Call} : advance p c = some p' ↔ Move p c p' := by
  constructor
  · intro h
    unfold advance at h
    split at h
    · cases h
      exact .root _
    · split at h <;> cases h
      exact .opening _ ‹_›
    · split at h <;> cases h
      subst_vars
      exact .closeRoot _
    · split at h <;> cases h
      subst_vars
      exact .closing _ _ _
    · split at h <;> cases h
      exact .add ‹_›
    · cases h
  · intro h
    cases h <;> simp [advance, *]

def track (p : Position) : List Call → Option Position
  | [] => some p
  | c :: cs => (advance p c).bind fun p' => track p' cs

theorem track_append (p : Position) (cs ds : List Call) :
    track p (cs ++ ds) = (track p cs).bind fun p' => track p' ds := by
  induction cs generalizing p with
  | nil => rfl
  | cons c cs ih =>
    simp only [List.cons_append, track]
    cases advance p c with
    | none => rfl
    | some p' => exact ih p'

theorem track_snoc {p p' : Position} {cs : List Call} (h : track p cs = some p') (c : Call) :
    track p (cs ++ [c]) = advance p' c := by
  rw [track_append, h]
  cases h' : advance p' c <;> simp [track, h']

def Frame.calls (fr : Frame) : List Call := .opening fr.kind fr.key :: Wtools.calls fr.done

/-- The calls that led to a position. -/
def Position.calls : Position → List Call
  | .start => []
  | .inside fr outer => (fr :: outer).reverse.flatMap Frame.calls
  | .complete key body => Wtools.calls (.node (.map, key) body .nil)

def Nested : Frame → List Frame → Prop
  | fr, [] => fr.kind = .map ∧ Legal fr.kind fr.done
  | fr, o :: outer => o.kind.holds fr.kind ∧ Legal fr.kind fr.done ∧ Nested o outer

def Position.Legal : Position → Prop
  | .start => True
  | .inside fr outer => Nested fr outer
  | .complete _ body => Wtools.Legal .map body

theorem Nested.put {fr : Frame} {outer : List Frame} {f : Items} (h : Nested fr outer)
    (hf : Legal fr.kind f) : Nested (fr.put f) outer := by
  cases outer with
  | nil => exact ⟨h.1, h.2.append hf⟩
  | cons o outer => exact ⟨h.1, h.2.1.append hf, h.2.2⟩

theorem advance_legal {p p' : Position} {c : Call} (hp : p.Legal) (h : advance p c = some p') :
    p'.Legal := by
  cases advance_eq_some.mp h with
  | root key => exact ⟨rfl, trivial⟩
  | opening key hk => exact ⟨hk, trivial, hp⟩
  | closeRoot fr =>
    obtain ⟨hk, hl⟩ := hp
    rw [hk] at hl
    exact hl
  | closing fr o outer => exact hp.2.2.put ⟨hp.1, hp.2.1, trivial⟩
  | add he => exact Nested.put hp ⟨he, trivial⟩

theorem advance_calls {p p' : Position} {c : Call} (hp : p.Legal) (h : advance p c = some p') :
    p'.calls = p.calls ++ [c] := by
  cases advance_eq_some.mp h with
  | root key => rfl
  | opening key hk => simp [Position.calls, Frame.calls]
  | closeRoot fr => simp [Position.calls, Frame.calls, hp.1]
  | closing fr o outer => simp [Position.calls, Frame.calls, Frame.closed]
  | add he => simp [Position.calls, Frame.calls]

theorem track_legal {p p' : Position} {cs : List Call} (hp : p.Legal) (h : track p cs = some p') :
    p'.Legal ∧ p'.calls = p.calls ++ cs := by
  induction cs generalizing p with
  | nil =>
    obtain rfl : p = p' := by simpa [track] using h
    exact ⟨hp, (List.append_nil _).symm⟩
  | cons c cs ih =>
    obtain ⟨q, hq, h⟩ := Option.bind_eq_some_iff.mp h
    obtain ⟨hl, hc⟩ := ih (advance_legal hp hq) h
    exact ⟨hl, by simp [hc, advance_calls hp hq]⟩

theorem track_spells {p : Position} {cs : List Call} (h : track .start cs = some p) :
    p.Legal ∧ p.calls = cs := track_legal (p := .start) trivial h

theorem track_calls {fr : Frame} {outer : List Frame} {f : Items} (hf : Legal fr.kind f) :
    track (.inside fr outer) (calls f) = some (.inside (fr.put f) outer) := by
  induction f generalizing fr outer with
  | nil => simp [track, Frame.put]
  | leaf e rest ih =>
    obtain ⟨he, hrest⟩ := hf
    rw [calls_leaf, track, advance, if_pos he, Option.bind_some,
      ih (show Legal (fr.put (.leaf e .nil)).kind rest from hrest), Frame.put_put]
    rfl
  | node l body rest ihb ih =>
    obtain ⟨k, key⟩ := l
    obtain ⟨hk, hb, hrest⟩ := hf
    rw [calls_node, track, advance, if_pos hk, Option.bind_some, track_append,
      ihb (show Legal (Frame.mk k key .nil).kind body from hb), Option.bind_some, track, advance,
      if_pos (by rfl), Option.bind_some, ih (show Legal (fr.put _).kind rest from hrest),
      Frame.put_put]
    rfl

/-- Contents that are accepted become contents of the innermost container. -/
theorem track_contents {fr : Frame} {outer : List Frame} {f : Items} {p : Position}
    (h : track (.inside fr outer) (calls f) = some p) : p = .inside (fr.put f) outer := by
  induction f generalizing fr outer p with
  | nil =>
    rw [calls_nil, track, Option.some.injEq] at h
    simp [← h, Frame.put]
  | leaf e rest ih =>
    rw [calls_leaf, track, Option.bind_eq_some_iff] at h
    obtain ⟨q, hq, h⟩ := h
    cases advance_eq_some.mp hq with
    | add he =>
      rw [ih h, Frame.put_put]
      rfl
  | node l body rest ihb ih =>
    obtain ⟨k, key⟩ := l
    rw [calls_node, track, Option.bind_eq_some_iff] at h
    obtain ⟨q, hq, h⟩ := h
    cases advance_eq_some.mp hq with
    | opening key hk =>
      rw [track_append, Option.bind_eq_some_iff] at h
      obtain ⟨q, hq, h⟩ := h
      obtain rfl := ihb hq
      rw [track, Option.bind_eq_some_iff] at h
      obtain ⟨q, hq, h⟩ := h
      cases advance_eq_some.mp hq with
      | closing fr' o outer' =>
        rw [ih h, Frame.put_put]
        rfl

/-- A container that is opened, filled and closed is the document, or becomes contents of the
innermost container. -/
theorem track_node {l : Kind × UInt16} {body : Items} {p p' : Position}
    (h : track p (calls (.node l body .nil)) = some p') :
    p = .start ∧ p' = .complete l.2 body ∨
      ∃ fr outer, p = .inside fr outer ∧ p' = .inside (fr.put (.node l body .nil)) outer := by
  cases p with
  | inside fr outer => exact .inr ⟨fr, outer, rfl, track_contents h⟩
  | complete key body' =>
    obtain ⟨k, key⟩ := l
    rw [calls_node, track, Option.bind_eq_some_iff] at h
    obtain ⟨q, hq, -⟩ := h
    cases hq
  | start =>
    obtain ⟨k, key⟩ := l
    rw [calls_node, track, Option.bind_eq_some_iff] at h
    obtain ⟨q, hq, h⟩ := h
    cases advance_eq_some.mp hq with
    | root key =>
      rw [track_append, Option.bind_eq_some_iff] at h
      obtain ⟨q, hq, h⟩ := h
      obtain rfl := track_contents hq
      cases h
      exact .inl ⟨rfl, rfl⟩

theorem track_doc {key : UInt16} {body : Items} (hb : Legal .map body) :
    track .start (calls (.node (.map, key) body .nil)) = some (.complete key body) := by
  rw [calls_node, track, advance, Option.bind_some, track_append, track_calls hb, Option.bind_some]
  rfl

theorem isDoc_iff {cs : List Call} :
    IsDoc cs ↔ ∃ key body, track .start cs = some (.complete key body) := by
  constructor
  · rintro ⟨key, ws, hw, rfl⟩
    obtain ⟨body, hb, rfl⟩ := words_iff.mp hw
    exact ⟨key, body, by rw [← track_doc hb, calls_node, calls_nil]⟩
  · rintro ⟨key, body, h⟩
    obtain ⟨hl, rfl⟩ := track_spells h
    exact ⟨key, calls body, words_iff.mpr ⟨body, hl, rfl⟩, by simp [Position.calls]⟩

theorem track_completes {fr : Frame} {outer : List Frame} (h : Nested fr outer) :
    ∃ cs key body, track (.inside fr outer) cs = some (.complete key body) := by
  induction outer generalizing fr with
  | nil => exact ⟨[.closing fr.kind], fr.key, fr.done, by simp [track, advance]⟩
  | cons o outer ih =>
    obtain ⟨cs, key, body, hcs⟩ := ih (h.2.2.put (f := fr.closed) ⟨h.1, h.2.1, trivial⟩)
    exact ⟨.closing fr.kind :: cs, key, body, by simp [track, advance, hcs]⟩

theorem isPrefix_iff {cs : List Call} : IsPrefix cs ↔ (track .start cs).isSome := by
  constructor
  · rintro ⟨rest, h⟩
    obtain ⟨key, body, h⟩ := isDoc_iff.mp h
    rw [track_append, Option.bind_eq_some_iff] at h
    obtain ⟨p, hp, -⟩ := h
    rw [hp, Option.isSome_some]
  · intro h
    obtain ⟨p, hp⟩ := Option.isSome_iff_exists.mp h
    obtain ⟨hl, -⟩ := track_spells hp
    cases p with
    | start =>
      refine ⟨[.opening .map 0, .closing .map], isDoc_iff.mpr ⟨0, .nil, ?_⟩⟩
      rw [track_append, hp]
      rfl
    | inside fr outer =>
      obtain ⟨rest, key, body, hr⟩ := track_completes hl
      refine ⟨rest, isDoc_iff.mpr ⟨key, body, ?_⟩⟩
      rw [track_append, hp, Option.bind_some, hr]
    | complete key body =>
      refine ⟨[], isDoc_iff.mpr ⟨key, body, ?_⟩⟩
      rw [List.append_nil, hp]

/-- Whether the key of a keyed add fits the header; other calls are not checked. -/
def Call.inRange : Call → Bool
  | .add (.keyed key _) => key ≤ 0xFFF
  | _ => true

/-- The move of the writer: one call of the grammar whose key is in range. -/
def Position.next? (p : Position) (c : Call) : Option Position :=
  if c.inRange then advance p c else none

/-- A refused call leaves the position alone. -/
def Position.next (p : Position) (c : Call) : Position := (p.next? c).getD p

theorem next?_eq_some {p p' : Position} {c : Call} :
    p.next? c = some p' ↔ c.inRange ∧ advance p c = some p' := by
  simp [Position.next?]

end Wtools
