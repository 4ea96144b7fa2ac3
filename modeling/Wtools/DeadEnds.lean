import Wtools.PathSearch

/-!
# Paths that lead nowhere

`bkv_val_get2` keeps its place in the path in one counter, which the entry into a map moves on and
the end of that map does not move back. So the search goes on behind a map that it has entered, and
looks there for the rest of the path.
-/

namespace Wtools
open ByteMemory Forest

def Scalar.isNumber : Scalar → Bool
  | .u16 _ | .u32 _ | .u64 _ | .float _ => true
  | _ => false

/-- The records of a map answer a path in the order in which they lie there: a map that is entered
gives way to its contents, which the records behind it follow. -/
inductive Answers : Items → List UInt16 → Prop
  | entry (e : Entry) (rest : Items) : Answers (.leaf e rest) [e.key]
  | container (l : Kind × UInt16) (body rest : Items) : Answers (.node l body rest) [l.2]
  | enter (key : UInt16) {body rest : Items} {more : List UInt16} (h : Answers (body ++ rest) more) :
      Answers (.node (.map, key) body rest) (key :: more)
  | entryBefore (e : Entry) {rest : Items} {k : UInt16} {more : List UInt16}
      (he : e.key = k → e.scalar.isNumber = false) (h : Answers rest (k :: more)) :
      Answers (.leaf e rest) (k :: more)
  | mapBefore {key : UInt16} (body : Items) {rest : Items} {k : UInt16} {more : List UInt16}
      (hk : key ≠ k) (h : Answers rest (k :: more)) :
      Answers (.node (.map, key) body rest) (k :: more)
  | arrayBefore (key : UInt16) (body : Items) {rest : Items} {k : UInt16} {more : List UInt16}
      (h : Answers rest (k :: more)) : Answers (.node (.array, key) body rest) (k :: more)

/-- What becomes of a search in the contents of a container: it ends there, or leaves them with the
keys that are still to be found. -/
inductive Course where
  | found
  | stopped
  | left (path : List UInt16)
  deriving DecidableEq

def Course.next : Course → (List UInt16 → Course) → Course
  | .left path, g => g path
  | c, _ => c

def course : Items → List UInt16 → Course
  | _, [] => .left []
  | .nil, path => .left path
  | .leaf e rest, k :: more =>
    if e.key ≠ k then course rest (k :: more)
    else if more = [] then .found
    else if e.scalar.isNumber then .stopped
    else course rest (k :: more)
  | .node (.map, key) body rest, k :: more =>
    if key ≠ k then course rest (k :: more)
    else if more = [] then .found
    else (course body more).next (course rest)
  | .node (.array, key) _ rest, k :: more =>
    if key = k ∧ more = [] then .found else course rest (k :: more)

section Course
variable {f g : Items} {k : UInt16} {more : List UInt16}

theorem not_answers_nil (path : List UInt16) : ¬Answers .nil path := by
  intro h
  cases h

theorem not_answers_done (f : Items) : ¬Answers f [] := by
  intro h
  cases h

theorem answers_leaf {e : Entry} {rest : Items} : Answers (.leaf e rest) (k :: more) ↔
    (e.key = k ∧ more = []) ∨ ((e.key = k → e.scalar.isNumber = false) ∧ Answers rest (k :: more)) := by
  constructor
  · intro h
    cases h with
    | entry => exact Or.inl ⟨rfl, rfl⟩
    | entryBefore _ he h => exact Or.inr ⟨he, h⟩
  · rintro (⟨rfl, rfl⟩ | ⟨he, h⟩)
    · exact .entry e rest
    · exact .entryBefore e he h

theorem answers_map {key : UInt16} {body rest : Items} :
    Answers (.node (.map, key) body rest) (k :: more) ↔
      if key = k then more = [] ∨ Answers (body ++ rest) more else Answers rest (k :: more) := by
  constructor
  · intro h
    cases h with
    | container => exact (if_pos rfl).mpr (Or.inl rfl)
    | enter _ h => exact (if_pos rfl).mpr (Or.inr h)
    | mapBefore _ hk h => exact (if_neg hk).mpr h
  · intro h
    by_cases hk : key = k
    · subst hk
      rw [if_pos rfl] at h
      rcases h with rfl | h
      · exact .container (.map, key) body rest
      · exact .enter key h
    · rw [if_neg hk] at h
      exact .mapBefore body hk h

theorem answers_array {key : UInt16} {body rest : Items} :
    Answers (.node (.array, key) body rest) (k :: more) ↔
      (key = k ∧ more = []) ∨ Answers rest (k :: more) := by
  constructor
  · intro h
    cases h with
    | container => exact Or.inl ⟨rfl, rfl⟩
    | arrayBefore _ _ h => exact Or.inr h
  · rintro (⟨rfl, rfl⟩ | h)
    · exact .container (.array, key) body rest
    · exact .arrayBefore key body h

/-- The search finds something, at once or in what follows the contents. -/
def Course.Answered (g : Items) : Course → Prop
  | .found => True
  | .stopped => False
  | .left path => Answers g path

theorem answers_append (f g : Items) (path : List UInt16) :
    Answers (f ++ g) path ↔ (course f path).Answered g := by
  induction f generalizing g path with
  | nil => cases path <;> exact Iff.rfl
  | leaf e rest ih =>
    cases path with
    | nil => exact iff_of_false (not_answers_done _) (not_answers_done _)
    | cons k more =>
      rw [leaf_append, answers_leaf, course, ih]
      by_cases hk : e.key = k
      · by_cases hm : more = []
        · simp [hk, hm, Course.Answered]
        · cases hn : e.scalar.isNumber <;> simp [hk, hm, Course.Answered]
      · simp [hk]
  | node l body rest ihb ih =>
    cases path with
    | nil => exact iff_of_false (not_answers_done _) (not_answers_done _)
    | cons k more =>
      obtain ⟨kind, key⟩ := l
      cases kind with
      | map =>
        rw [node_append, answers_map, course, ih, ihb]
        by_cases hk : key = k
        · by_cases hm : more = []
          · simp [hk, hm, Course.Answered]
          · cases hc : course body more with
            | left path => simp [hk, hm, Course.Answered, Course.next, ih]
            | _ => simp [hk, hm, Course.Answered, Course.next]
        · simp [hk]
      | array =>
        rw [node_append, answers_array, course, ih]
        by_cases hk : key = k ∧ more = []
        · simp [hk, Course.Answered]
        · simp [hk]

theorem answers_iff (f : Items) (path : List UInt16) : Answers f path ↔ course f path = .found := by
  have h := answers_append f .nil path
  rw [append_nil] at h
  rw [h]
  cases course f path with
  | left path => simp [Course.Answered, not_answers_nil]
  | _ => simp [Course.Answered]

end Course

section Walk
variable {k : UInt16} {c : GetCtx}

def Event.isNumber : Event → Bool
  | .uint16 .. | .uint32 .. | .uint64 .. | .float .. => true
  | _ => false

theorem scalarEvent_isNumber (off : Nat) (deep : Int) (key : UInt16) (v : Scalar) :
    (scalarEvent off deep key v).isNumber = v.isNumber := by
  cases v <;> rfl

theorem scalarEvent_isMapOpen (off : Nat) (deep : Int) (key : UInt16) (v : Scalar) :
    (scalarEvent off deep key v).isMapOpen = false := by
  cases v <;> rfl

theorem keyed_callback (hkeys : c.keys ≠ none) {e : Event} (he : e.key? = some k)
    (hm : e.isMapOpen = false) :
    (e.isNumber = true ∧ ∃ type u f, valGetCallbacks e c = getNumber type u f k c) ∨
      (e.isNumber = false ∧ ∃ set, valGetCallbacks e c = getLast set k c) := by
  cases e with
  | mapOpen p key => cases hm
  | mapClose key => cases he
  | arrayClose => cases he
  | arrayOpen p len key =>
    cases he
    exact Or.inr ⟨rfl, _, by rw [valGetCallbacks, bkvValGetArrayOpen, if_neg hkeys]⟩
  | uint16 p deep key v =>
    cases he
    exact Or.inl ⟨rfl, _, _, _, rfl⟩
  | uint32 p deep key v =>
    cases he
    exact Or.inl ⟨rfl, _, _, _, rfl⟩
  | uint64 p deep key v =>
    cases he
    exact Or.inl ⟨rfl, _, _, _, rfl⟩
  | float p key v =>
    cases he
    exact Or.inl ⟨rfl, _, _, _, rfl⟩
  | str p key s len =>
    cases he
    exact Or.inr ⟨rfl, _, rfl⟩
  | double p key v =>
    cases he
    exact Or.inr ⟨rfl, _, rfl⟩
  | boolean p key v =>
    cases he
    exact Or.inr ⟨rfl, _, rfl⟩

/-- A record with the last key ends the search. -/
theorem Searching.hit (hc : Searching k true c) {e : Event} (he : e.key? = some k) :
    ∃ c', visit valGetCallbacks e c = .ok (⟨false, true⟩, c') ∧ c'.valIsSet = true := by
  have hstop : actionStopLoop ≠ 0 := by decide
  have hfound : c.found k = .ok (some true) := by rw [hc.found, if_pos rfl]
  cases hm : e.isMapOpen with
  | true =>
    cases e with
    | mapOpen p key =>
      cases he
      obtain ⟨c', hvis, hset, -⟩ := hc.hit_map p
      exact ⟨c', hvis, hset⟩
    | _ => cases hm
  | false =>
    rcases keyed_callback hc.keys he hm with ⟨-, type, u, f, hcb⟩ | ⟨-, set, hcb⟩
    · refine ⟨c.setVal fun v => f { v with type := type, u := u }, ?_, rfl⟩
      simp [visit, hcb, getNumber, hc.keys, hfound, Except.map, skips, hm, hstop]
    · refine ⟨c.setVal set, ?_, rfl⟩
      simp [visit, hcb, getLast, hfound, Except.map, skips, hm, hstop]

/-- A record with an inner key that is not a map is passed over, or ends the search without a
result when it is a number. -/
theorem Searching.over (hc : Searching k false c) {e : Event} (he : e.key? = some k)
    (hm : e.isMapOpen = false) : visit valGetCallbacks e c = .ok (⟨false, e.isNumber⟩, c) := by
  have hstop : actionStopLoop ≠ 0 := by decide
  have hfound : c.found k = .ok (some false) := by rw [hc.found, if_pos rfl]
  rcases keyed_callback hc.keys he hm with ⟨hn, type, u, f, hcb⟩ | ⟨hn, set, hcb⟩
  · simp [visit, hcb, getNumber, hc.keys, hfound, Except.map, skips, hm, hstop, hn]
  · simp [visit, hcb, getLast, hfound, Except.map, skips, hm, actionNone, hn]

/-- The outcome of the walk that a course stands for, for a search that has found the keys
`before`. -/
def Course.Shows (before path : List UInt16) (nb_val : Int) (val : Cells BkvVal) :
    Course → Outcome Fault GetCtx → Prop
  | .left path', o => path' ≠ [] ∧ ∃ passed, path = passed ++ path' ∧
      o = .ok (false, seekingFrom (before ++ passed) path' nb_val val)
  | .found, o => ∃ c', o = .ok (true, c') ∧ c'.valIsSet = true
  | .stopped, o => ∃ c', o = .ok (true, c') ∧ c'.valIsSet = false

variable {nb_val : Int} {val : Cells BkvVal} {before path passed path' : List UInt16}
  {co : Course} {o : Outcome Fault GetCtx}

theorem Course.Shows.after (h : co.Shows (before ++ passed) path' nb_val val o) :
    co.Shows before (passed ++ path') nb_val val o := by
  cases co with
  | found => exact h
  | stopped => exact h
  | left p =>
    obtain ⟨hne, q, rfl, ho⟩ := h
    exact ⟨hne, passed ++ q, (List.append_assoc _ _ _).symm, by rw [ho, List.append_assoc]⟩

theorem Course.Shows.next {g : List UInt16 → Course} {w : GetCtx → Outcome Fault GetCtx}
    (h : co.Shows before path nb_val val o)
    (hg : ∀ passed path', path = passed ++ path' → path' ≠ [] →
      (g path').Shows (before ++ passed) path' nb_val val
        (w (seekingFrom (before ++ passed) path' nb_val val))) :
    (co.next g).Shows before path nb_val val (o.next w) := by
  cases co with
  | found =>
    obtain ⟨c', rfl, hset⟩ := h
    exact ⟨c', rfl, hset⟩
  | stopped =>
    obtain ⟨c', rfl, hset⟩ := h
    exact ⟨c', rfl, hset⟩
  | left p =>
    obtain ⟨hne, q, rfl, rfl⟩ := h
    exact (hg q p rfl hne).after

section Records
variable {more : List UInt16} {key : UInt16} {body rest : Items} {w wb : GetCtx → Outcome Fault GetCtx}

/-- One scalar record, with the course of the search behind it. -/
theorem leaf_shows (e : Entry) (off : Nat) (deep : Int) (hmore : ∀ k' ∈ more, k' ≠ bkvKeyInvalid)
    (hrest : (course rest (k :: more)).Shows before (k :: more) nb_val val
      (w (seekingFrom before (k :: more) nb_val val))) :
    (course (.leaf e rest) (k :: more)).Shows before (k :: more) nb_val val
      ((visited (visit valGetCallbacks (scalarEvent off deep e.key e.scalar)
        (seekingFrom before (k :: more) nb_val val))).next w) := by
  have hc := searching_from (k := k) before nb_val val hmore
  have hkey := scalarEvent_key off deep e.key e.scalar
  have hm := scalarEvent_isMapOpen off deep e.key e.scalar
  rw [course]
  by_cases hk : e.key = k
  · rw [if_neg (not_not.mpr hk)]
    rw [hk] at hkey hm ⊢
    by_cases hlast : more = []
    · subst hlast
      obtain ⟨c', hvis, hset⟩ := hc.hit hkey
      rw [hvis]
      exact ⟨c', rfl, hset⟩
    · rw [if_neg hlast]
      have hempty : more.isEmpty = false := by simpa using hlast
      rw [hempty] at hc
      rw [hc.over hkey hm, scalarEvent_isNumber]
      cases e.scalar.isNumber with
      | true => exact ⟨_, rfl, rfl⟩
      | false => exact hrest
  · rw [if_pos hk, hc.pass (by simpa [hkey] using hk), hm]
    exact hrest

/-- A map is the end of the search, is entered and left with what is still to be found, or is passed
over. -/
theorem map_shows (off : Nat) (hlow : ∀ k' ∈ k :: more, k' < bkvArrayKey)
    (hbody : more ≠ [] → (course body more).Shows (before ++ [k]) more nb_val val
      (wb (seekingFrom (before ++ [k]) more nb_val val)))
    (hrest : ∀ before' {path' : List UInt16}, path' ≠ [] → (∀ k' ∈ path', k' < bkvArrayKey) →
      (course rest path').Shows before' path' nb_val val (w (seekingFrom before' path' nb_val val))) :
    (course (.node (.map, key) body rest) (k :: more)).Shows before (k :: more) nb_val val
      (enter (visit valGetCallbacks (.mapOpen off key) (seekingFrom before (k :: more) nb_val val))
        (fun c => (wb c).next w) w) := by
  have hlow' : ∀ k' ∈ more, k' < bkvArrayKey := fun k' hk' => hlow k' (List.mem_cons_of_mem _ hk')
  have hmore : ∀ k' ∈ more, k' ≠ bkvKeyInvalid := fun k' hk' => ne_keyInvalid (hlow' k' hk')
  have hc := searching_from (k := k) before nb_val val hmore
  rw [course]
  by_cases hk : key = k
  · subst hk
    rw [if_neg (not_not.mpr rfl)]
    by_cases hlast : more = []
    · subst hlast
      obtain ⟨c', hvis, hset⟩ := hc.hit (e := .mapOpen off key) rfl
      rw [hvis]
      exact ⟨c', rfl, hset⟩
    · rw [if_neg hlast, enters_map before more nb_val val hmore hlast]
      have hgoes := (hbody hlast).next (g := course rest) (w := w) ?_
      · exact hgoes.after
      · rintro passed path' rfl hne'
        exact hrest (before ++ [key] ++ passed) hne'
          (fun k' hk' => hlow' k' (List.mem_append_right _ hk'))
  · have hpass := hc.pass (e := .mapOpen off key) (by simpa [Event.key?] using hk)
    rw [if_pos hk, hpass]
    exact hrest before (List.cons_ne_nil k more) hlow

/-- An array is the end of the search, or nothing in it is. -/
theorem array_shows (off : Nat) (len : UInt16) (hmore : ∀ k' ∈ more, k' ≠ bkvKeyInvalid)
    (hbody : wb (seekingFrom before (k :: more) nb_val val) =
      .ok (false, seekingFrom before (k :: more) nb_val val))
    (hrest : (course rest (k :: more)).Shows before (k :: more) nb_val val
      (w (seekingFrom before (k :: more) nb_val val))) :
    (course (.node (.array, key) body rest) (k :: more)).Shows before (k :: more) nb_val val
      (enter (visit valGetCallbacks (.arrayOpen off len key)
          (seekingFrom before (k :: more) nb_val val))
        (fun c => (wb c).next w) w) := by
  have hc := searching_from (k := k) before nb_val val hmore
  have hgoes : visit valGetCallbacks (.arrayOpen off len key)
        (seekingFrom before (k :: more) nb_val val) =
          .ok (⟨false, false⟩, seekingFrom before (k :: more) nb_val val) →
      (course rest (k :: more)).Shows before (k :: more) nb_val val
        (enter (visit valGetCallbacks (.arrayOpen off len key)
          (seekingFrom before (k :: more) nb_val val)) (fun c => (wb c).next w) w) := by
    intro hvis
    rw [hvis]
    simp only [enter, hbody, Outcome.next_going]
    exact hrest
  rw [course]
  by_cases hk : key = k
  · subst hk
    by_cases hlast : more = []
    · subst hlast
      obtain ⟨c', hvis, hset⟩ := hc.hit (e := .arrayOpen off len key) rfl
      rw [if_pos ⟨rfl, rfl⟩, hvis]
      exact ⟨c', rfl, hset⟩
    · rw [if_neg (fun h => hlast h.2)]
      have hempty : more.isEmpty = false := by simpa using hlast
      rw [hempty] at hc
      exact hgoes (hc.over rfl rfl)
  · rw [if_neg (fun h => hk h.1)]
    exact hgoes (hc.pass (by simpa [Event.key?] using hk))

end Records

/-- The walk of the contents of a container is the course of the search. -/
theorem walk_course {kind : Kind} {f : Items} (hl : Legal kind f) (hw : WellKeyed f)
    (ck cn : Nat → UInt16) (deep : Int) (off : Nat) (before : List UInt16) {path : List UInt16}
    (hne : path ≠ []) (hlow : ∀ k ∈ path, k < bkvArrayKey) :
    (course f path).Shows before path nb_val val
      ((placed ck cn deep off f).walk (visit valGetCallbacks)
        (seekingFrom before path nb_val val)) := by
  obtain ⟨k, more, rfl⟩ := List.exists_cons_of_ne_nil hne
  induction f generalizing kind deep off before k more with
  | nil => exact ⟨hne, [], rfl, by rw [List.append_nil]; rfl⟩
  | leaf e rest ih =>
    have hmore : ∀ k' ∈ more, k' ≠ bkvKeyInvalid :=
      fun k' hk' => ne_keyInvalid (hlow k' (List.mem_cons_of_mem _ hk'))
    rw [placed, Forest.walk]
    exact leaf_shows e off deep hmore (ih hl.2 hw deep (off + e.width) before k more hne hlow)
  | node l body rest ihb ih =>
    have hmore : ∀ k' ∈ more, k' < bkvArrayKey := fun k' hk' => hlow k' (List.mem_cons_of_mem _ hk')
    obtain ⟨-, hlb, hlr⟩ := hl
    obtain ⟨sort, key⟩ := l
    have hclose : ∀ o c, visited (visit valGetCallbacks (closeEvent o sort) c) =
        .ok (false, c) := by
      intro o c
      cases sort <;> simp [visit, closeEvent, valGetCallbacks, Except.map, actionNone]
    rw [placed, Forest.walk]
    simp only [openEvent, hclose, Outcome.next_going]
    cases sort with
    | map =>
      obtain ⟨-, hwb, hwr⟩ := hw
      refine map_shows off hlow ?_ ?_
      · intro hlast
        obtain ⟨k', more', rfl⟩ := List.exists_cons_of_ne_nil hlast
        exact ihb hlb hwb (deep + 1) _ (before ++ [k]) k' more' hlast hmore
      · intro before' path' hne' hlow'
        obtain ⟨k', more', rfl⟩ := List.exists_cons_of_ne_nil hne'
        exact ih hlr hwr deep _ before' k' more' hne' hlow'
    | array =>
      obtain ⟨hscalars, hwr⟩ := hw
      have hc := searching_from (k := k) before nb_val val fun k' hk' => ne_keyInvalid (hmore k' hk')
      refine array_shows off (cn off) (fun k' hk' => ne_keyInvalid (hmore k' hk')) ?_ ?_
      · exact hc.miss (hidden_elements hlb hscalars (hlow k List.mem_cons_self)) _ _
      · exact ih hlr hwr deep _ before k more hne hlow

end Walk

/-- The lookup on a document returns what the course of the search says. -/
theorem MapAt.get2_course {z : Zone} {root : UInt16} {body : Items} (hm : MapAt z 0 root body)
    {v : BkvVal} (hv : v.priv = 0) (hl : Legal .map body) (hw : WellKeyed body)
    {path : List UInt16} (hne : path ≠ []) (hlow : ∀ k ∈ path, k < bkvArrayKey) (nb_val : Int)
    (val : Cells BkvVal) :
    ∃ val', bkvValGet2 z v (some (path ++ [bkvKeyInvalid])) nb_val val =
      .ok (if course body path = .found then bkvOk else bkvInvArg, val') := by
  have hcourse : (course body path).Shows [] path nb_val val
      ((placed (closeKeys z.mem) (counts z.mem) 1 (0 + 4) body).walk (visit valGetCallbacks)
        (seekingFrom [] path nb_val val)) :=
    walk_course hl hw (closeKeys z.mem) (counts z.mem) 1 (0 + 4) [] hne hlow
  rw [hm.get2 hv]
  change ∃ val', Except.map _ ((placed (closeKeys z.mem) (counts z.mem) 1 (0 + 4) body).walk
    (visit valGetCallbacks) (seekingFrom [] path nb_val val)) = _
  cases hc : course body path with
  | found =>
    rw [hc] at hcourse
    obtain ⟨c', hwalk, hset⟩ := hcourse
    exact ⟨c'.val, by rw [hwalk]; simp [Except.map, hset]⟩
  | stopped =>
    rw [hc] at hcourse
    obtain ⟨c', hwalk, hset⟩ := hcourse
    exact ⟨c'.val, by rw [hwalk]; simp [Except.map, hset]⟩
  | left path' =>
    rw [hc] at hcourse
    obtain ⟨-, passed, -, hwalk⟩ := hcourse
    exact ⟨val, by rw [hwalk]; simp [Except.map, seekingFrom]⟩

end Wtools
