import Wtools.CachedDico

/-!
# The dictionary types

The same text through either dictionary. The calls made for it are the same if and only if
its names are words of letters and digits and no name comes for the first time after a
longer one that begins with it.
-/

namespace Wtools
open Forest

variable {env : Env} {float : List UInt8 → UInt32} {accept : Accept} {heap heap' : Heap}
  {key : Nat → UInt16} {head : KeytreeHead} {shown : List (Key × List UInt8)} {j : Json .map}

/-- A key tree of words of letters and digits. -/
structure KeytreeHead.Filed (head : KeytreeHead) (ws : List (List UInt8)) : Prop where
  folds : head.folds = false
  sound : head.top.Sound
  some : head.top ≠ .null
  tree : head.top.tree = treeOf ws

theorem cachedHead_filed : cachedHead.Filed [] :=
  ⟨rfl, Key.sound_blank, by simp [cachedHead, Key.blank], cachedHead_tree⟩

theorem named_chosen {done ws : List (List UInt8)} (hws : ∀ w ∈ ws, AlnumWord w)
    (hf : head.Filed done) (hm : ∀ n, heap.malloc n) {d : Dico}
    (h : Named env key done.length (.cached head heap) ws d) :
    ∃ head' heap', d = .cached head' heap' ∧ head'.Filed (done ++ ws) ∧
      ∀ pre w post, ws = pre ++ w :: post →
        key ((done ++ pre).length + 1) = chosen (treeOf (done ++ pre)) (done ++ pre).length w := by
  induction ws generalizing done head heap with
  | nil =>
    cases h
    exact ⟨head, heap, rfl, by rwa [List.append_nil], by simp⟩
  | cons w ws ih =>
    rw [List.forall_mem_cons] at hws
    obtain ⟨r, hr, hadd⟩ := wgKeytreeAdd_filed hf.folds hf.sound hf.some hws.1.1 hws.1.2
      (UInt16.ofNat (done.length + 2)).toUInt64 hm
    cases h with
    | cons hcall hkey hrest =>
      rw [dicoKeyAdd_cached hadd] at hcall
      cases hcall
      have hf' : KeytreeHead.Filed { head with top := r.key } (done ++ [w]) :=
        ⟨hf.folds, hr.sound, hr.some, by rw [hr.tree, hf.tree, treeOf_snoc]⟩
      obtain ⟨head', heap', rfl, hfiled, hchosen⟩ := ih hws.2 hf'
        (hr.malloc ▸ hm) (by simpa using hrest)
      refine ⟨head', heap', rfl, by simpa using hfiled, fun pre w' post hpre => ?_⟩
      cases pre with
      | nil =>
        cases hpre
        have hfin : (if r.error = wEExists then (r.udata.getD 0).toUInt16 else bkvNoKey) =
            ((((treeOf done).entry w).map Prod.snd).getD 0).toUInt16 := by
          rw [hr.error, hr.out, hf.tree]
          cases (treeOf done).entry w <;> rfl
        rw [List.append_nil, hkey, chosen, hfin]
      | cons v pre =>
        cases hpre
        simpa using hchosen pre w' post rfl

variable {ws : List (List UInt8)}

theorem walk_label (htree : head.top.tree = treeOf ws) (w : List UInt8) :
    (w.foldl Key.next head.top).tree.label = (treeOf ws).entry w := by
  rw [Key.tree_walk, htree, PrefixTree.entry]

theorem filed_lists (hk : head.top.Sound) (htree : head.top.tree = treeOf ws)
    (hshown : keytreeForeach head.top [] = .ok shown) : Lists (shownWords shown) (treeOf ws) := by
  intro k w
  have hwalk := walk_label htree w
  rw [mem_shownWords]
  constructor
  · rintro ⟨k', hmem, v, hv, hkey⟩
    obtain ⟨u, rfl, hu⟩ := (foreach_mem hshown _ _).mp hmem
    obtain ⟨hne, rfl, -⟩ := hk.shown_iff.mp hu
    exact ⟨hne, v, hwalk ▸ hv, hkey⟩
  · rintro ⟨hne, v, hv, hkey⟩
    rw [← hwalk] at hv
    refine ⟨_, (foreach_mem hshown _ _).mpr ⟨w, rfl, hk.shown_iff.mpr ⟨hne, rfl, ?_⟩⟩, v, hv, hkey⟩
    intro hnull
    rw [hnull] at hv
    cases hv

/-- The generator calls for the document made of a text with a dictionary of the type. -/
def madeBy (env : Env) (heap : Heap) (float : List UInt8 → UInt32) (accept : Accept)
    (type : DicoType) (text : List JsonEvent) : Option (List GenCall) :=
  match bkvFromJson env heap float type text with
  | .ok (_, some h) =>
    match bkvToJson env accept h with
    | .ok (_, g) => some g.made
    | .error _ => none
  | _ => none

theorem CachedRun.made (h : CachedRun heap j.names head heap' shown) (accept : Accept)
    (hg : Granted env) (hm : heap.malloc heap.calls) (hj : j.Plain) (hn : j.names.length ≤ 4091)
    (hsize : ∀ r h, bkvFromJson env heap float .cached j.text = .ok (r, some h) →
      h.writeOffset ≤ 65535) :
    ∃ key, Named env key 0 (.cached cachedHead heap.next) j.names (.cached head heap') ∧
      madeBy env heap float accept .cached j.text =
        some (render accept (fun k => (shownWords shown).lookup k)
          (calls (.node (.map, bkvNoKey) (j.faithful key 0) .nil)) ⟨[], []⟩).2.made := by
  obtain ⟨hadm, hkept⟩ := plain_kept j hj.1
  obtain ⟨key, a, hnamed, hkeys, hwords, hrun, hs⟩ :=
    h.document hg hm (hadm.imp (fun _ _ => trivial) fun _ _ h => h) hn float
  rw [Json.stored_eq j hadm hkept (.inr (Json.hasElement_map j))] at hs
  have hjson := toJson_document env accept hs (hsize _ _ hrun)
    (faithful_shown j hj.1 fun i _ => hkeys i) fun p hp => UInt16.le_trans (hwords p hp) (by decide)
  exact ⟨key, hnamed, by simp only [madeBy, hrun, hjson]⟩

/-- Names of letters and digits are found again if and only if each comes before the longer ones
that begin with it. -/
theorem CachedRun.resolves_iff (h : CachedRun heap ws head heap' shown) (hm : ∀ n, heap.malloc n)
    (hnamed : Named env key 0 (.cached cachedHead heap.next) ws (.cached head heap'))
    (hws : ∀ w ∈ ws, AlnumWord w) (hlen : ws.length ≤ 4091) :
    Lists (shownWords shown) (treeOf ws) ∧
      (Resolves (fun k => (shownWords shown).lookup k) key 0 ws ↔ PrefixesFirst ws) := by
  obtain ⟨head₁, heap₁, hd, hf, hkeyed⟩ :=
    named_chosen hws cachedHead_filed (show ∀ n, heap.next.malloc n from hm) hnamed
  cases hd
  have hlists := filed_lists hf.sound hf.tree h.shows
  exact ⟨hlists, resolves_iff_prefixesFirst hkeyed hlists (fun h => (hws [] h).1 rfl) hlen⟩

/-- The object `{"ab":"x","a":"y"}`. -/
def prefixText : Json .map :=
  .member [0x61, 0x62] (.string [0x78]) (.member [0x61] (.string [0x79]) .nil)

theorem prefixText_size : ∀ type r h, bkvFromJson calmEnv calmHeap (fun _ => 0) type prefixText.text =
    .ok (r, some h) → h.writeOffset ≤ 65535 := by
  intro type
  cases type <;> exact writtenSize_le (by decide +kernel)

end Wtools
