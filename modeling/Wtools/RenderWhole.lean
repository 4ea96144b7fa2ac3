import Wtools.RenderNames
import Wtools.Splice

/-!
# Renderings that miss something

A callback of `bkv_to_json` can only stop the loop, and a loop that is stopped returns `BKV_OK` like
one that has come to the end. So every document is rendered with success, and what has come of it
depends on the names in the dictionary and on the generator.
-/

namespace Wtools
open ByteMemory Forest

/-- The tokens of a record: a value or a container comes after its name, an element has none. -/
def Call.tokens? (names : Names) : Call → Option (List GenCall)
  | .opening k key => do return [.string (← names key), startToken k]
  | .closing k => some [endToken k]
  | .add e => e.tokens? names

/-- The tokens of the records in order, if all their names are known. -/
def tokensOf? (names : Names) : List Call → Option (List GenCall)
  | [] => some []
  | c :: cs => do return (← c.tokens? names) ++ (← tokensOf? names cs)

/-- The outermost map has no name when it has no key. -/
def rootTokens? (names : Names) (key : UInt16) : Option (List GenCall) :=
  if key = bkvNoKey then some [.mapOpen] else (Call.opening .map key).tokens? names

/-- The tokens of a document with the contents `f` besides its dictionary. -/
def documentTokens? (names : Names) (key : UInt16) (f : Items) : Option (List GenCall) := do
  return (← rootTokens? names key) ++ (← tokensOf? names (calls f ++ [.closing .map]))

/-- A rendering in which every record has been passed to the generator and taken by it. -/
def RenderedWhole (names : Names) (key : UInt16) (f : Items) (g : Gen) : Prop :=
  ∃ ts, documentTokens? names key f = some ts ∧ g.made = ts ∧ g.taken = ts

/-- The record has a name, if it needs one. The name of a map is not written when it is empty or the
key is `BKV_NO_KEY`. -/
def Call.Named (names : Names) : Call → Prop
  | .opening .map key => key ≠ bkvNoKey ∧ ∃ w, names key = some w ∧ w ≠ []
  | .opening .array key => ∃ w, names key = some w
  | .add (.keyed key _) => ∃ w, names key = some w
  | _ => True

/-- All names are known, and the generator takes the tokens one after the other. -/
structure Renderable (accept : Accept) (names : Names) (key : UInt16) (f : Items) : Prop where
  root : key = bkvNoKey ∨ (Call.opening .map key).Named names
  named : ∀ c ∈ calls f, c.Named names
  taken : ∀ ts, documentTokens? names key f = some ts → Takes accept [] ts

section Whole
variable {accept : Accept} {names : Names} {c : Call} {cs : List Call} {ts : List GenCall} {g : Gen}

theorem append_eq_some {a b : Option (List GenCall)} :
    (do return (← a) ++ (← b) : Option (List GenCall)) = some ts ↔
      ∃ us vs, a = some us ∧ b = some vs ∧ us ++ vs = ts := by
  constructor
  · intro h
    obtain ⟨us, hus, h⟩ := Option.bind_eq_some_iff.mp h
    obtain ⟨vs, hvs, h⟩ := Option.bind_eq_some_iff.mp h
    cases h
    exact ⟨us, vs, hus, hvs, rfl⟩
  · rintro ⟨us, vs, rfl, rfl, rfl⟩
    rfl

theorem tokensOf?_cons : tokensOf? names (c :: cs) = some ts ↔
    ∃ us vs, c.tokens? names = some us ∧ tokensOf? names cs = some vs ∧ us ++ vs = ts := by
  rw [tokensOf?]
  exact append_eq_some

theorem Call.Named.tokens (hn : c.Named names) (hs : c.Shown) :
    ∃ ts, c.tokens? names = some ts := by
  rcases c with ⟨k, key⟩ | k | ⟨key, v⟩ | v
  · obtain ⟨w, hw⟩ : ∃ w, names key = some w := by
      cases k with
      | map =>
        obtain ⟨-, w, hw, -⟩ := hn
        exact ⟨w, hw⟩
      | array => exact hn
    exact ⟨_, by rw [Call.tokens?, hw]; rfl⟩
  · exact ⟨_, rfl⟩
  · obtain ⟨w, hw⟩ := hn
    obtain ⟨t, ht⟩ := Option.isSome_iff_exists.mp hs.2
    exact ⟨_, by rw [Call.tokens?, Entry.tokens?, hw, ht]; rfl⟩
  · obtain ⟨t, ht⟩ := Option.isSome_iff_exists.mp hs
    exact ⟨_, by rw [Call.tokens?, Entry.tokens?, ht]; rfl⟩

theorem tokensOf?_named (hn : ∀ c ∈ cs, c.Named names) (hs : ∀ c ∈ cs, c.Shown) :
    ∃ ts, tokensOf? names cs = some ts := by
  induction cs with
  | nil => exact ⟨[], rfl⟩
  | cons c cs ih =>
    rw [List.forall_mem_cons] at hn hs
    obtain ⟨us, hus⟩ := hn.1.tokens hs.1
    obtain ⟨vs, hvs⟩ := ih hn.2 hs.2
    exact ⟨_, tokensOf?_cons.mpr ⟨us, vs, hus, hvs, rfl⟩⟩

theorem renderCall_whole (hn : c.Named names) (ht : c.tokens? names = some ts)
    (ha : Takes accept g.taken ts) : renderCall accept names c g = (false, g.extend ts) := by
  cases c with
  | opening k key =>
    obtain ⟨w, hw, h⟩ := Option.bind_eq_some_iff.mp ht
    cases h
    refine render_opening k hw ?_ ha
    rintro rfl
    obtain ⟨hkey, w', hw', hne⟩ := hn
    rw [hw] at hw'
    cases hw'
    exact ⟨hkey, hne⟩
  | closing k =>
    cases ht
    exact render_closing k ha.1
  | add e => exact render_add ht ha

theorem render_whole (hn : ∀ c ∈ cs, c.Named names) (ht : tokensOf? names cs = some ts)
    (ha : Takes accept g.taken ts) : render accept names cs g = (false, g.extend ts) := by
  induction cs generalizing g ts with
  | nil =>
    cases ht
    simp [render, renderWith, Gen.extend]
  | cons c cs ih =>
    obtain ⟨us, vs, hus, hvs, rfl⟩ := tokensOf?_cons.mp ht
    rw [List.forall_mem_cons] at hn
    rw [takes_append] at ha
    have hrest := ih hn.2 hvs (g := g.extend us) ha.2
    rw [render_cons, renderCall_whole hn.1 hus ha.1, if_neg Bool.false_ne_true, hrest,
      extend_extend]

theorem renderRoot_whole {key : UInt16} (hn : key = bkvNoKey ∨ (Call.opening .map key).Named names)
    (ht : rootTokens? names key = some ts) (ha : Takes accept g.taken ts) :
    renderCall accept names (.opening .map key) g = (false, g.extend ts) := by
  rw [rootTokens?] at ht
  by_cases hkey : key = bkvNoKey
  · subst hkey
    cases ht
    rw [renderCall, if_pos rfl]
    simp only [List.length_nil, Nat.lt_irrefl, if_false]
    rw [call_extend ha.1]
    rfl
  · rw [if_neg hkey] at ht
    exact renderCall_whole (hn.resolve_left hkey) ht ha

end Whole

section Missed
variable (accept : Accept) (names : Names) {c : Call} {cs : List Call} {ts : List GenCall}

theorem makes_call (ht : c.tokens? names = some ts) (g : Gen) :
    Makes g (render accept names [c] g) ts (c.Named names) := by
  rcases c with ⟨k, key⟩ | k | ⟨key, v⟩ | v
  · obtain ⟨w, -, h⟩ := Option.bind_eq_some_iff.mp ht
    cases h
    apply (makes_opening accept names k key w g).imp
    rintro ⟨hw, hmap⟩
    cases k with
    | map => exact ⟨(hmap rfl).1, w, hw, (hmap rfl).2⟩
    | array => exact ⟨w, hw⟩
  · cases ht
    exact makes_closing accept names k g
  · obtain ⟨w, -, h⟩ := Option.bind_eq_some_iff.mp ht
    obtain ⟨t, hst, h⟩ := Option.bind_eq_some_iff.mp h
    cases h
    exact (makes_member accept names hst w g).imp fun hw => ⟨w, hw⟩
  · obtain ⟨t, hst, h⟩ := Option.bind_eq_some_iff.mp ht
    cases h
    exact makes_element accept names hst g

theorem tokens?_ne_nil (ht : c.tokens? names = some ts) : ts ≠ [] := by
  rcases c with ⟨k, key⟩ | k | ⟨key, v⟩ | v
  · obtain ⟨w, -, h⟩ := Option.bind_eq_some_iff.mp ht
    cases h
    simp
  · cases ht
    simp
  · obtain ⟨w, -, h⟩ := Option.bind_eq_some_iff.mp ht
    obtain ⟨t, -, h⟩ := Option.bind_eq_some_iff.mp h
    cases h
    simp
  · obtain ⟨t, -, h⟩ := Option.bind_eq_some_iff.mp ht
    cases h
    simp

theorem tokensOf?_nil (ht : tokensOf? names cs = some []) : cs = [] := by
  cases cs with
  | nil => rfl
  | cons c cs =>
    obtain ⟨us, vs, hus, -, happ⟩ := tokensOf?_cons.mp ht
    exact absurd (List.append_eq_nil_iff.mp happ).1 (tokens?_ne_nil names hus)

/-- A rendering gives all the tokens only if all the names are known. -/
theorem makes_calls (ht : tokensOf? names cs = some ts) (g : Gen) :
    Makes g (render accept names cs g) ts (∀ c ∈ cs, c.Named names) := by
  induction cs generalizing ts g with
  | nil =>
    cases ht
    exact ⟨[], by simp [render, renderWith], Nat.zero_le _, by simp⟩
  | cons c cs ih =>
    obtain ⟨us, vs, hus, hvs, rfl⟩ := tokensOf?_cons.mp ht
    have hnone : vs = [] → ∀ c ∈ cs, c.Named names := by
      rintro rfl
      simp [tokensOf?_nil names hvs]
    have happend := (makes_call accept names hus g).append (fun g' => ih hvs g') hnone
    exact happend.imp fun h => List.forall_mem_cons.mpr h

theorem makes_rootTokens {key : UInt16} (ht : rootTokens? names key = some ts) (g : Gen) :
    Makes g (render accept names [.opening .map key] g) ts
      (key = bkvNoKey ∨ (Call.opening .map key).Named names) := by
  rw [rootTokens?] at ht
  by_cases hkey : key = bkvNoKey
  · subst hkey
    cases ht
    exact (makes_root accept names g).imp fun _ => .inl rfl
  · rw [if_neg hkey] at ht
    exact (makes_call accept names ht g).imp .inr

end Missed

section Taken
variable {accept : Accept} {names : Names} {g : Gen}

/-- What a generator has taken are some of the calls made, and if they are all of them it took them
one after the other. -/
structure Gen.Took (accept : Accept) (g : Gen) : Prop where
  length : g.taken.length ≤ g.made.length
  takes : g.made = g.taken → Takes accept [] g.taken

theorem Gen.Took.call (hg : g.Took accept) (t : GenCall) : (g.call accept t).2.Took accept := by
  rw [Gen.call]
  split
  · rename_i ha
    refine ⟨by simpa using hg.length, ?_⟩
    intro heq
    obtain ⟨hmade, -⟩ := List.append_inj' heq rfl
    exact takes_append.mpr ⟨hg.takes hmade, by simpa using ha, trivial⟩
  · have hlen := hg.length
    refine ⟨by simp; omega, ?_⟩
    intro heq
    have := congrArg List.length heq
    simp at this
    omega

theorem Gen.Took.calls (hg : g.Took accept) (ts : List GenCall) :
    (g.calls accept ts).2.Took accept := by
  induction ts generalizing g with
  | nil => exact hg
  | cons t ts ih =>
    rw [Gen.calls]
    have hcall := hg.call t
    cases hx : g.call accept t with
    | mk ok g' =>
      rw [hx] at hcall
      cases ok with
      | true => exact ih hcall
      | false => exact hcall

theorem Gen.Took.renderCall (hg : g.Took accept) (names : Names) (c : Call) :
    (renderCall accept names c g).2.Took accept := by
  rcases c with ⟨_ | _, key⟩ | k | e
  · rw [Wtools.renderCall]
    split
    · exact hg
    · dsimp only [Gen.stop]
      split
      · exact (hg.call _).call _
      · exact hg.call _
  · rw [Wtools.renderCall]
    split
    · exact hg
    · exact hg.calls _
  · exact hg.call _
  · rw [Wtools.renderCall]
    split
    · exact hg
    · exact hg.calls _

theorem Gen.Took.render (hg : g.Took accept) (names : Names) (cs : List Call) :
    (render accept names cs g).2.Took accept := by
  induction cs generalizing g with
  | nil => exact hg
  | cons c cs ih =>
    rw [render_cons]
    split
    · exact hg.renderCall names c
    · exact ih (hg.renderCall names c)

end Taken

theorem opening_not_mem_dictionary {k : Kind} {key : UInt16} {ws : List (UInt16 × List UInt8)} :
    .opening k key ∉ calls (dictionary ws) := by
  induction ws with
  | nil => simp [dictionary]
  | cons p ws ih => simpa [dictionary] using ih

section Document
variable {accept : Accept} {names : Names} {key : UInt16} {f : Items} {ts : List GenCall}

theorem documentTokens?_eq_some : documentTokens? names key f = some ts ↔
    ∃ us vs, rootTokens? names key = some us ∧
      tokensOf? names (calls f ++ [.closing .map]) = some vs ∧ us ++ vs = ts := by
  rw [documentTokens?]
  exact append_eq_some

theorem Renderable.tokens (hr : Renderable accept names key f) (hs : ∀ c ∈ calls f, c.Shown)
    (hkey : key ≤ 0xFFC) : ∃ ts, documentTokens? names key f = some ts := by
  obtain ⟨us, hus⟩ : ∃ us, rootTokens? names key = some us := by
    rw [rootTokens?]
    split
    · exact ⟨_, rfl⟩
    · rename_i hne
      exact (hr.root.resolve_left hne).tokens hkey
  obtain ⟨vs, hvs⟩ : ∃ vs, tokensOf? names (calls f ++ [.closing .map]) = some vs := by
    apply tokensOf?_named
    · rw [List.forall_mem_append, List.forall_mem_singleton]
      exact ⟨hr.named, trivial⟩
    · rw [List.forall_mem_append, List.forall_mem_singleton]
      exact ⟨hs, trivial⟩
  exact ⟨_, documentTokens?_eq_some.mpr ⟨us, vs, hus, hvs, rfl⟩⟩

/-- The rendering of a document. -/
def rendering (accept : Accept) (names : Names) (key : UInt16) (f : Items) : Gen :=
  (render accept names (calls (.node (.map, key) f .nil)) ⟨[], []⟩).2

theorem renderedWhole_iff (hs : ∀ c ∈ calls f, c.Shown) (hkey : key ≤ 0xFFC) :
    RenderedWhole names key f (rendering accept names key f) ↔ Renderable accept names key f := by
  rw [rendering, calls_node, calls_nil]
  constructor
  · rintro ⟨ts, htokens, hmade, htaken⟩
    obtain ⟨us, vs, hus, hvs, rfl⟩ := documentTokens?_eq_some.mp htokens
    have hne : vs = [] → ∀ c ∈ calls f ++ [.closing .map], c.Named names := by
      rintro rfl
      simp [tokensOf?_nil names hvs]
    obtain ⟨out, hout, -, hnamed⟩ := (makes_rootTokens accept names hus ⟨[], []⟩).append
      (makes_calls accept names hvs) hne
    replace hout :
        (render accept names (.opening .map key :: (calls f ++ [.closing .map])) ⟨[], []⟩).2.made =
          out := hout
    obtain ⟨hroot, hcalls⟩ := hnamed (hout.symm.trans hmade)
    rw [List.forall_mem_append] at hcalls
    have htook : Gen.Took accept ⟨[], []⟩ := ⟨Nat.le_refl _, fun _ => trivial⟩
    have htakes := (htook.render names _).takes (hmade.trans htaken.symm)
    refine ⟨hroot, hcalls.1, ?_⟩
    intro ts' htokens'
    rw [htokens, Option.some.injEq] at htokens'
    rw [← htokens', ← htaken]
    exact htakes
  · intro hr
    obtain ⟨ts, htokens⟩ := hr.tokens hs hkey
    have htakes := hr.taken ts htokens
    obtain ⟨us, vs, hus, hvs, rfl⟩ := documentTokens?_eq_some.mp htokens
    rw [takes_append] at htakes
    have hnamed : ∀ c ∈ calls f ++ [.closing .map], c.Named names := by
      rw [List.forall_mem_append, List.forall_mem_singleton]
      exact ⟨hr.named, trivial⟩
    have hrest := render_whole hnamed hvs (g := Gen.extend ⟨[], []⟩ us) htakes.2
    rw [render_cons, renderRoot_whole hr.root hus htakes.1, if_neg Bool.false_ne_true, hrest,
      extend_extend]
    exact ⟨_, htokens, rfl, rfl⟩

variable {h : Bkv} {rest : Items} {ws : List (UInt16 × List UInt8)}

theorem HoldsDocument.mapAt
    (hd : HoldsDocument h (calls (.node (.map, key)
      (f ++ .node (.map, bkvDicoKey) (dictionary ws) rest) .nil)))
    (hsize : h.writeOffset ≤ 65535) (hkey : key ≤ 0xFFF)
    (hk : ∀ k key', .opening k key' ∈ calls (f ++ rest) → key' ≤ 0xFFF) :
    MapAt (bkvGetHead h) 0 key (f ++ .node (.map, bkvDicoKey) (dictionary ws) rest) := by
  obtain ⟨key', body, -, hcalls, hfit, hw, hin⟩ := hd
  rw [← calls_injective hcalls] at hfit hw
  refine mapAt_head hfit hw hsize (calls_fit (hw ▸ hsize) hin ?_)
  intro k key' hmem
  simp only [calls_node, calls_append, calls_nil, List.mem_cons, List.mem_append,
    Call.opening.injEq, reduceCtorEq, List.not_mem_nil, or_false, false_or] at hmem hk
  rcases hmem with ⟨-, rfl⟩ | hmem | ⟨-, rfl⟩ | hmem | hmem
  · exact hkey
  · exact hk _ _ (.inl hmem)
  · decide
  · exact absurd hmem opening_not_mem_dictionary
  · exact hk _ _ (.inr hmem)

theorem HoldsDocument.toJson (env : Env) (accept : Accept)
    (hd : HoldsDocument h (calls (.node (.map, key)
      (f ++ .node (.map, bkvDicoKey) (dictionary ws) rest) .nil)))
    (hsize : h.writeOffset ≤ 65535) (hkey : key ≤ 0xFFC) (hs : ∀ c ∈ calls (f ++ rest), c.Shown) :
    bkvToJson env accept h =
      .ok (bkvOk, rendering accept (fun k => ws.lookup k) key (f ++ rest)) := by
  have hs' := hs
  rw [calls_append, List.forall_mem_append] at hs'
  have hm := hd.mapAt hsize (UInt16.le_trans hkey (by decide)) fun k key' hmem =>
    UInt16.le_trans (hs _ hmem) (by decide)
  exact toJson_mapAt env accept hm hkey hs'.1 hs'.2

end Document

/-- A document is rendered whole, as the success of `bkv_to_json` says it is, if and only if all its
names are known and the generator takes every token. -/
theorem success_whole_iff (env : Env) (accept : Accept) (h : Bkv) (key : UInt16) (f rest : Items)
    (ws : List (UInt16 × List UInt8))
    (hd : HoldsDocument h (calls (.node (.map, key)
      (f ++ .node (.map, bkvDicoKey) (dictionary ws) rest) .nil)))
    (hsize : h.writeOffset ≤ 65535) (hkey : key ≤ 0xFFC) (hs : ∀ c ∈ calls (f ++ rest), c.Shown) :
    (∀ g, bkvToJson env accept h = .ok (bkvOk, g) →
      RenderedWhole (fun k => ws.lookup k) key (f ++ rest) g) ↔
    Renderable accept (fun k => ws.lookup k) key (f ++ rest) := by
  have hjson := hd.toJson env accept hsize hkey hs
  rw [← renderedWhole_iff hs hkey]
  constructor
  · intro hall
    exact hall _ hjson
  · intro hwhole g hg
    rw [hjson] at hg
    cases hg
    exact hwhole

/-- `{3: true}` with a dictionary that names the key 2 only. -/
def unnamedDocument : Bkv :=
  (runOk calmEnv ramHandle [.opening .map 0, .add (.keyed 3 (.boolean true)), .opening .map 0xFFE,
    .add (.keyed 2 (.str [0x61])), .closing .map, .closing .map]).getD ramHandle

theorem unnamedDocument_holds : HoldsDocument unnamedDocument (calls (.node (.map, 0)
    (.leaf (.keyed 3 (.boolean true)) .nil ++
      .node (.map, bkvDicoKey) (dictionary [(2, [0x61])]) .nil) .nil)) :=
  runOk_holds ramHandle_fresh rfl rfl

theorem unnamed_reported_whole :
    HoldsDocument unnamedDocument (calls (.node (.map, 0)
      (.leaf (.keyed 3 (.boolean true)) .nil ++
        .node (.map, bkvDicoKey) (dictionary [(2, [0x61])]) .nil) .nil)) ∧
    bkvToJson calmEnv (fun _ _ => true) unnamedDocument = .ok (bkvOk, ⟨[.mapOpen], [.mapOpen]⟩) ∧
    ¬RenderedWhole (fun k => [(2, [0x61])].lookup k) 0 (.leaf (.keyed 3 (.boolean true)) .nil)
      ⟨[.mapOpen], [.mapOpen]⟩ := by
  refine ⟨runOk_holds ramHandle_fresh rfl rfl, rfl, ?_⟩
  rintro ⟨ts, htokens, -⟩
  cases htokens

/-- `{3: true}` with its name. -/
def namedDocument : Bkv :=
  (runOk calmEnv ramHandle [.opening .map 0, .add (.keyed 3 (.boolean true)), .opening .map 0xFFE,
    .add (.keyed 3 (.str [0x61])), .closing .map, .closing .map]).getD ramHandle

theorem namedDocument_holds : HoldsDocument namedDocument (calls (.node (.map, 0)
    (.leaf (.keyed 3 (.boolean true)) .nil ++
      .node (.map, bkvDicoKey) (dictionary [(3, [0x61])]) .nil) .nil)) :=
  runOk_holds ramHandle_fresh rfl rfl

theorem success_whole_iff_named : ∃ g,
    bkvToJson calmEnv (fun _ _ => true) namedDocument = .ok (bkvOk, g) ∧
      RenderedWhole (fun k => [(3, [0x61])].lookup k) 0
        (.leaf (.keyed 3 (.boolean true)) .nil ++ .nil) g :=
  ⟨_, rfl, (success_whole_iff calmEnv (fun _ _ => true) namedDocument 0
    (.leaf (.keyed 3 (.boolean true)) .nil) .nil [(3, [0x61])] namedDocument_holds (by decide)
    (by decide) (by simp [Call.Shown, Scalar.token?])).mpr
    ⟨.inl rfl, by simp [Call.Named], fun ts h => by cases h; simp [Takes]⟩ _ rfl⟩

end Wtools
