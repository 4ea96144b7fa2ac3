import Wtools.Records

/-!
# Splicing a document into an open map

`bkv_append` copies the bytes of a finished document to the end of one that is being written, and
changes neither the state nor the nesting stack. The lengths of the enclosing maps come out right
because they are computed from offsets when the maps are closed, and a traversal walks through the
foreign root because its depth counter takes it for one more container.
-/

namespace Wtools
open ByteMemory Forest

/-- The buffer of a handle holds the document that the calls spell. -/
def HoldsDocument (h : Bkv) (cs : List Call) : Prop :=
  ∃ key body, Legal .map body ∧ cs = calls (.node (.map, key) body .nil) ∧
    ByteMemory.Fits h.ptr 0 (enc (.node (.map, key) body .nil)) ∧
    h.writeOffset = size (.node (.map, key) body .nil) ∧ ∀ c ∈ cs, c.inRange

/-- The invocations of a traversal from the head with callbacks that ask for nothing. -/
def Traverses (h : Bkv) (evs : List Event) : Prop :=
  ∃ v, bkvValInit (bkvGetHead h) bkvValInitValue 0 = .ok (bkvOk, v) ∧
    ∀ (σ : Type) (f : σ → Event → σ) (s : σ),
      valForeachPtr (bkvGetHead h) v (fun e s => .ok (actionNone, f s e)) s =
        .ok (bkvOk, h.writeOffset, evs.foldl f s)

/-- The fields of a handle that decide which calls it accepts and where it patches lengths. -/
structure SameNesting (h h' : Bkv) : Prop where
  state : h'.state = h.state
  deepOffset : h'.deepOffset = h.deepOffset
  deepValue : h'.deepValue = h.deepValue
  mapOffset : h'.mapOffset = h.mapOffset
  arrayNbElems : h'.arrayNbElems = h.arrayNbElems

/-- What a document with another one spliced in should be: the invocations of `cs`, those of the
document `a` at the depth of the open map, and those of `cs'`; lengths that count the bytes of
`a`; and the bytes of `a` as they were. -/
structure Spliced (h a final : Bkv) (cs ds cs' : List Call) : Prop where
  callbacks : ∃ evs evsA pre post, Traverses final evs ∧ Traverses a evsA ∧
    evs.map (Event.seen (bkvGetHead final)) =
      pre ++ ((evsA.map (Event.seen (bkvGetHead a))).map (Seen.shift (h.deepOffset + 1)) ++ post) ∧
    ShowsAll 0 cs pre ∧ ShowsAll 0 ds (evsA.map (Event.seen (bkvGetHead a))) ∧
    ShowsAll (h.deepOffset + 1) cs' post
  fields : FieldsExact final.ptr 0 (cs ++ (ds ++ cs'))
  bytes : slice final.ptr h.writeOffset a.writeOffset = slice a.ptr 0 a.writeOffset

variable {env : Env} {h a : Bkv}

theorem runOk_holds {h₀ : Bkv} {cs : List Call} (hf : FreshRam env h₀)
    (hr : runOk env h₀ cs = some h) (ht : h.state = .term) : HoldsDocument h cs := by
  obtain ⟨hc, key, body, hl, hcs, hfit, hw⟩ := closed_layout hf hr ht
  exact ⟨key, body, hl, hcs, hfit, hw, hc⟩

theorem HoldsDocument.widths {cs : List Call} (hd : HoldsDocument h cs) :
    h.writeOffset = widths cs := by
  obtain ⟨key, body, -, rfl, -, hw, -⟩ := hd
  rw [hw, widths_calls]

/-- What a document in a buffer gives: its invocations, its records, and exact fields. -/
theorem HoldsDocument.reads {cs : List Call} (hd : HoldsDocument h cs)
    (hsize : h.writeOffset ≤ 65535) (hk : ∀ k key, .opening k key ∈ cs → key ≤ 0xFFF) :
    Traverses h (callEvents (closeKeys h.ptr) (counts h.ptr) 0 0 cs) ∧ RecordsFit h.ptr 0 cs ∧
      FieldsExact h.ptr 0 cs := by
  obtain ⟨key, body, -, rfl, hfit, hw, hin⟩ := hd
  have hcs := calls_fit (hw ▸ hsize) hin hk
  have hz : size (.node (.map, key) body .nil) ≤ (bkvGetHead h).size := Nat.le_of_eq hw.symm
  have hbase : (bkvGetHead h).size < 2 ^ 31 := by
    change h.writeOffset < _
    omega
  have hkey : key ≤ 0xFFF := hcs (.opening .map key) (by simp)
  refine ⟨⟨_, bkvValInit_map hfit (by rwa [Nat.zero_add]) hkey _, ?_⟩, recordsFit_calls hfit, ?_⟩
  · intro σ f s
    rw [hw, ← visits_eq]
    exact foreach_visits hfit hz hbase hcs rfl f s
  · rw [← List.append_nil (calls _)]
    apply (fieldsExact_calls hfit hin (by simp [FieldsExact, FieldsFit])).mpr
    exact fieldsFit_calls (hw ▸ hsize) hk trivial

theorem append_eq (hfd : h.fd = -1) (hre : ∀ n, env.realloc n) (t : Tail) :
    (bkvAppend env h t).1 = bkvOk ∧ SameNesting h (bkvAppend env h t).2 ∧
      (bkvAppend env h t).2.ptr = put h.ptr h.writeOffset (slice t.ptr 0 t.writeOffset) ∧
      (bkvAppend env h t).2.writeOffset = h.writeOffset + t.writeOffset := by
  have hok := append_granted env t hfd hre
  rcases bkvAppend_cases env h t with ⟨hne, -⟩ | ⟨n, happ⟩
  · exact absurd hok hne
  · rw [happ]
    refine ⟨rfl, ⟨rfl, rfl, rfl, rfl, rfl⟩, rfl, ?_⟩
    exact congrArg (h.writeOffset + ·) (slice_length _)

theorem Sim.inMap {p : Position} (hs : Sim h p) (hmap : h.state = .inMap) :
    ∃ fr outer, p = .inside fr outer ∧ fr.kind = .map := by
  cases p with
  | start => simp [hs.controls.1] at hmap
  | complete key body => simp [hs.controls.1] at hmap
  | inside fr outer =>
    refine ⟨fr, outer, rfl, ?_⟩
    have hstate := hs.controls.1
    rw [hmap] at hstate
    cases hfr : fr.kind with
    | map => rfl
    | array => simp [hfr, Kind.state] at hstate

section Spliced
variable {final : Bkv} {p : Position} {cs ds cs' : List Call} (hs : Sim h p)
  (hmap : h.state = .inMap) (ha : HoldsDocument a ds) (hre : ∀ n, env.realloc n)
  (hr' : runOk env (bkvAppend env h a.toTail).2 cs' = some final)
include hs hmap ha hre hr'

/-- The calls that close the map later make one document of all the calls. -/
theorem spliced_document (hp : track .start cs = some p) (hin : ∀ c ∈ cs, c.inRange)
    (ht : final.state = .term) : HoldsDocument final (cs ++ (ds ++ cs')) := by
  obtain ⟨fr, outer, rfl, -⟩ := hs.inMap hmap
  obtain ⟨keyA, bodyA, hlA, rfl, hfitA, hwA, hinA⟩ := ha
  have hlegal := legal_map fr.kind keyA hlA
  obtain ⟨-, hs'⟩ := hs.append env (a := a.toTail) hre hlegal hfitA hwA
  obtain ⟨q, hq, hsq, hin'⟩ := hs'.runOk env hr'
  have htrack : track .start (cs ++ (calls (.node (.map, keyA) bodyA .nil) ++ cs')) = some q := by
    rw [track_append, hp, Option.bind_some, track_append, track_calls hlegal, Option.bind_some, hq]
  obtain ⟨key, body, rfl⟩ := hsq.complete ht
  obtain ⟨hl, hcalls⟩ := track_spells htrack
  refine ⟨key, body, hl, hcalls.symm, hsq.laid.1, hsq.laid.2, ?_⟩
  intro c hc
  rw [List.mem_append, List.mem_append] at hc
  rcases hc with hc | hc | hc
  · exact hin c hc
  · exact hinA c hc
  · exact hin' c hc

theorem spliced_bytes :
    slice final.ptr h.writeOffset a.writeOffset = slice a.ptr 0 a.writeOffset ∧
      final.writeOffset = h.writeOffset + a.writeOffset + widths cs' := by
  obtain ⟨fr, outer, rfl, -⟩ := hs.inMap hmap
  obtain ⟨keyA, bodyA, hlA, rfl, hfitA, hwA, -⟩ := ha
  have hlegal := legal_map fr.kind keyA hlA
  obtain ⟨-, hs'⟩ := hs.append env (a := a.toTail) hre hlegal hfitA hwA
  obtain ⟨-, hnest, hptr, hw⟩ := append_eq (t := a.toTail) hs.ram hre
  replace hw : (bkvAppend env h a.toTail).2.writeOffset = h.writeOffset + a.writeOffset := hw
  have happart : Apart (bkvAppend env h a.toTail).2.mapOffset h.writeOffset
      (h.writeOffset + a.writeOffset)
      (Position.inside (fr.put (.node (.map, keyA) bodyA .nil)) outer).frames := by
    rw [hnest.mapOffset]
    exact (show Laid h.ptr h.mapOffset (fr :: outer) h.writeOffset from hs.laid).apart (Nat.le_refl _)
  have hput : slice (bkvAppend env h a.toTail).2.ptr h.writeOffset a.writeOffset =
      slice a.ptr 0 a.writeOffset := by
    rw [hptr]
    exact holds_put.eq_slice (slice_length _)
  refine ⟨?_, ?_⟩
  · rw [← hput]
    exact (slice_congr (runOk_frame hs' hr' (Nat.le_of_eq hw.symm) happart)).symm
  · rw [(runOk_moves hs' hr').1, hw]

end Spliced

/-- A document appended to a handle in an open map becomes a member of it. -/
theorem append_splices (env : Env) (h₀ h a final : Bkv) (cs ds cs' : List Call)
    (hf : FreshRam env h₀) (hr : runOk env h₀ cs = some h) (hmap : h.state = .inMap)
    (ha : HoldsDocument a ds) (hre : ∀ n, env.realloc n)
    (hr' : runOk env (bkvAppend env h a.toTail).2 cs' = some final) (ht : final.state = .term)
    (hsize : final.writeOffset ≤ 65535)
    (hk : ∀ k key, .opening k key ∈ cs ++ (ds ++ cs') → key ≤ 0xFFF) :
    (bkvAppend env h a.toTail).1 = bkvOk ∧ SameNesting h (bkvAppend env h a.toTail).2 ∧
      Spliced h a final cs ds cs' := by
  have hs₀ := freshRam_sim hf
  obtain ⟨p, hp, hs, hin⟩ := hs₀.runOk env hr
  obtain ⟨hok, hnest, -⟩ := append_eq (t := a.toTail) hs.ram hre
  have hdoc := spliced_document hs hmap ha hre hr' hp hin ht
  obtain ⟨hbytes, hw⟩ := spliced_bytes hs hmap ha hre hr'
  obtain ⟨htrav, hrec, hfields⟩ := hdoc.reads hsize hk
  obtain ⟨htravA, hrecA, -⟩ := ha.reads (by omega) fun k key hc => hk k key (by simp [hc])
  have hwidthA := ha.widths
  have hstepsA : steps ds = 0 := by
    obtain ⟨keyA, bodyA, -, rfl, -⟩ := ha
    exact steps_calls _
  -- where the calls of `h` end, and how deep
  obtain ⟨hoff, hdeep⟩ := fresh_moves hs₀ hr
  have hsteps : steps cs = h.deepOffset + 1 := hdeep.symm
  rw [recordsFit_append, recordsFit_append, ← hwidthA, ← hoff, Nat.zero_add] at hrec
  have hcopied : (callEvents (closeKeys final.ptr) (counts final.ptr) (0 + (h.deepOffset + 1))
        (h.writeOffset + 0) ds).map (Event.seen (bkvGetHead final)) =
      ((callEvents (closeKeys a.ptr) (counts a.ptr) 0 0 ds).map (Event.seen (bkvGetHead a))).map
        (Seen.shift (h.deepOffset + 1)) :=
    seen_copied_all _ _ _ _ hbytes (show h.writeOffset + a.writeOffset ≤ final.writeOffset by omega)
      (Nat.le_refl a.writeOffset) (by omega)
  rw [Int.zero_add, Nat.add_zero] at hcopied
  refine ⟨hok, hnest, ⟨?_, hfields, hbytes⟩⟩
  refine ⟨_, _, (callEvents (closeKeys final.ptr) (counts final.ptr) 0 0 cs).map
      (Event.seen (bkvGetHead final)), (callEvents (closeKeys final.ptr) (counts final.ptr)
      (h.deepOffset + 1) (h.writeOffset + a.writeOffset) cs').map (Event.seen (bkvGetHead final)),
    htrav, htravA, ?_, ?_, ?_, ?_⟩
  · rw [callEvents_append, callEvents_append, List.map_append, List.map_append, ← hcopied, hstepsA,
      ← hwidthA, ← hoff, hsteps, Int.zero_add, Int.add_zero, Nat.zero_add]
  · apply showsAll_calls _ _ _ hrec.1
    change 0 + widths cs ≤ final.writeOffset
    omega
  · apply showsAll_calls _ _ _ hrecA
    change 0 + widths ds ≤ a.writeOffset
    omega
  · apply showsAll_calls _ _ _ hrec.2.2
    change h.writeOffset + a.writeOffset + widths cs' ≤ final.writeOffset
    omega

/-- A map of one string, as the dictionaries are. -/
def namesDocument : Bkv :=
  (runOk calmEnv ramHandle [.opening .map 0xFFE, .add (.keyed 2 (.str [0x61])), .closing .map]).getD
    ramHandle

theorem namesDocument_holds : HoldsDocument namesDocument
    [.opening .map 0xFFE, .add (.keyed 2 (.str [0x61])), .closing .map] :=
  runOk_holds ramHandle_fresh rfl rfl

theorem append_splices_dictionary :
    ∃ h final, runOk calmEnv ramHandle [.opening .map 0, .add (.keyed 2 (.u16 7))] = some h ∧
      runOk calmEnv (bkvAppend calmEnv h namesDocument.toTail).2
        [.add (.keyed 3 (.u16 9)), .closing .map] = some final ∧
      SameNesting h (bkvAppend calmEnv h namesDocument.toTail).2 ∧
      Spliced h namesDocument final [.opening .map 0, .add (.keyed 2 (.u16 7))]
        [.opening .map 0xFFE, .add (.keyed 2 (.str [0x61])), .closing .map]
        [.add (.keyed 3 (.u16 9)), .closing .map] := by
  have hsplice := append_splices calmEnv ramHandle _ namesDocument _
    [.opening .map 0, .add (.keyed 2 (.u16 7))]
    [.opening .map 0xFFE, .add (.keyed 2 (.str [0x61])), .closing .map]
    [.add (.keyed 3 (.u16 9)), .closing .map] ramHandle_fresh rfl rfl namesDocument_holds
    (fun _ => rfl) rfl rfl (by decide)
    (by simp only [List.cons_append, List.nil_append, List.mem_cons, Call.opening.injEq,
          reduceCtorEq, List.not_mem_nil, or_false, false_or]
        rintro k key (⟨-, rfl⟩ | ⟨-, rfl⟩) <;> decide)
  exact ⟨_, _, rfl, rfl, hsplice.2⟩

end Wtools
