import Mathlib.Data.List.Induction
import Mathlib.Data.Multiset.UnionInter
import Wtools.Library.Ownership

/-!
# The log library

The table of libraries of `lg.c`. `lg_term` frees the table and keeps `nb_libs`; `lg_lib_add` frees
the table when the name cannot be allocated and keeps `libs`. This module says which sequences of
calls a process survives.
-/

namespace Wtools.Lg

open Ownership

inductive LgType where
  | syslog | stdout | endValue
  deriving DecidableEq, Repr

/-- `s_current_process_ctx`. The entries are the `nb_libs` names in the table, none where nothing
was stored. -/
structure ProcessCtx where
  type : LgType
  libs : Nat
  entries : List (Option Nat)
  deriving DecidableEq, Repr

def initial : ProcessCtx := ⟨.endValue, 0, []⟩

/-- `realloc` of the table. It fails without a change, but may not be given a table that was
freed. -/
def reallocLibs (libs : Nat) (ok : Bool) : Proc Nat Nat :=
  if libs = 0 then if ok then acquire id else pure 0
  else if ok then do
    release libs
    acquire id
  else do
    need libs
    return 0

/-- `lg_lib_add`, with the answers of `realloc` and `malloc`. -/
def lgLibAdd (ctx : ProcessCtx) (realloc malloc : Bool) : Proc Nat (Int × ProcessCtx) := do
  let l_libs ← reallocLibs ctx.libs realloc
  if !realloc then return (-1, ctx)
  else if !malloc then do
    release l_libs
    return (-1, ctx)
  else do
    let l_libname ← acquire id
    return (0, { ctx with libs := l_libs, entries := ctx.entries ++ [some l_libname] })

/-- The loop of `lg_term`. What was never stored is no pointer to be freed. -/
def freeNames (libs : Nat) : List (Option Nat) → Proc Nat Unit
  | [] => pure ()
  | entry :: entries => do
    need libs
    match entry with
    | none => fun _ => none
    | some libname => do
      release libname
      freeNames libs entries

/-- The table is freed when there is one. -/
def freeLibs (libs : Nat) : Proc Nat Unit := if libs = 0 then pure () else release libs

/-- `lg_term`. -/
def lgTerm (ctx : ProcessCtx) : Proc Nat (Int × ProcessCtx) := do
  freeNames ctx.libs ctx.entries
  freeLibs ctx.libs
  return (0, ⟨.endValue, 0, ctx.entries.map fun _ => none⟩)

/-- `lg_init`. -/
def lgInit (ctx : ProcessCtx) (type : LgType) : Int × ProcessCtx := (0, { ctx with type := type })

inductive Call where
  | init (type : LgType)
  | add (realloc malloc : Bool)
  | term
  deriving DecidableEq, Repr

def Call.run (ctx : ProcessCtx) : Call → Proc Nat (Int × ProcessCtx)
  | .init type => pure (lgInit ctx type)
  | .add realloc malloc => lgLibAdd ctx realloc malloc
  | .term => lgTerm ctx

def runAll : ProcessCtx → List Call → Proc Nat ProcessCtx
  | ctx, [] => pure ctx
  | ctx, c :: cs => do
    let r ← c.run ctx
    runAll r.2 cs

/-- Where a process stands: no table yet; a table; no table, but `nb_libs` is not 0; a table whose
first entries were never stored; a table that was freed but is not forgotten. -/
inductive Stage where
  | empty | filled | ended | patched | dangling
  deriving DecidableEq, Repr

/-- The calls that a process survives. -/
def Stage.next : Stage → Call → Option Stage
  | σ, .init _ => some σ
  | .empty, .add realloc malloc => if realloc ∧ malloc then some .filled else some .empty
  | .filled, .add realloc malloc =>
    if realloc then if malloc then some .filled else some .dangling else some .filled
  | .ended, .add realloc malloc => if realloc ∧ malloc then some .patched else some .ended
  | .patched, .add realloc malloc =>
    if realloc then if malloc then some .patched else some .dangling else some .patched
  | .dangling, .add _ _ => none
  | .empty, .term => some .empty
  | .filled, .term => some .ended
  | .ended, .term => none
  | .patched, .term => none
  | .dangling, .term => none

def Stage.after : Stage → List Call → Option Stage
  | σ, [] => some σ
  | σ, c :: cs => (σ.next c).bind fun σ' => σ'.after cs

/-- Names are given once. -/
structure Sound (s : Store Nat) : Prop where
  nodup : s.goods.Nodup
  bounds : ∀ a ∈ s.goods, 0 < a ∧ a ≤ s.names

/-- What memory looks like at a stage. -/
def Stage.Holds (ctx : ProcessCtx) (s : Store Nat) : Stage → Prop
  | .empty => ctx.libs = 0 ∧ ctx.entries = [] ∧ s.goods = 0
  | .filled => ctx.libs ≠ 0 ∧ ∃ names, names ≠ [] ∧ ctx.entries = names.map some ∧
      s.goods = ctx.libs ::ₘ (names : Multiset Nat)
  | .ended => ctx.libs = 0 ∧ (∃ entries, ctx.entries = none :: entries) ∧ s.goods = 0
  | .patched => (∃ names, names ≠ 0 ∧ s.goods = ctx.libs ::ₘ names) ∧
      ∃ entries, ctx.entries = none :: entries
  | .dangling => (ctx.libs ≠ 0 ∧ ctx.libs ∉ s.goods) ∧ s.goods ≠ 0 ∧ ctx.entries ≠ []

variable {ctx : ProcessCtx} {s : Store Nat} {libs : Nat}

theorem Sound.zero (hs : Sound s) : 0 ∉ s.goods := fun h => absurd (hs.bounds 0 h).1 (lt_irrefl 0)

theorem Sound.new (hs : Sound s) : s.names + 1 ∉ s.goods := fun h =>
  absurd (hs.bounds _ h).2 (Nat.not_succ_le_self _)

theorem Sound.acquired (hs : Sound s) : Sound ⟨(s.names + 1) ::ₘ s.goods, s.names + 1⟩ := by
  refine ⟨Multiset.nodup_cons.mpr ⟨hs.new, hs.nodup⟩, fun a ha => ?_⟩
  rcases Multiset.mem_cons.mp ha with rfl | ha
  · exact ⟨Nat.succ_pos _, le_rfl⟩
  · exact ⟨(hs.bounds a ha).1, Nat.le_succ_of_le (hs.bounds a ha).2⟩

theorem Sound.erased (hs : Sound s) (a : Nat) {n : Nat} (hn : s.names ≤ n) :
    Sound ⟨s.goods.erase a, n⟩ := by
  refine ⟨hs.nodup.erase a, fun b hb => ?_⟩
  obtain ⟨hpos, hle⟩ := hs.bounds b (Multiset.mem_of_mem_erase hb)
  exact ⟨hpos, hle.trans hn⟩

/-- The table may be given to `realloc`. -/
def Usable (libs : Nat) (s : Store Nat) : Prop := libs = 0 ∨ libs ∈ s.goods

theorem reallocLibs_false (h : Usable libs s) : reallocLibs libs false s = some (0, s) := by
  rw [reallocLibs]
  split
  · rfl
  · rename_i hne
    change (need libs s).bind (fun p => some (0, p.2)) = _
    rw [need, if_pos (h.resolve_left hne)]
    rfl

theorem reallocLibs_true (hs : Sound s) (h : Usable libs s) : reallocLibs libs true s =
    some (s.names + 1, ⟨(s.names + 1) ::ₘ s.goods.erase libs, s.names + 1⟩) := by
  rw [reallocLibs]
  split
  · rename_i h0
    rw [h0, Multiset.erase_of_notMem hs.zero]
    rfl
  · rename_i hne
    change (release libs s).bind (fun p => acquire id p.2) = _
    rw [release, if_pos (h.resolve_left hne)]
    rfl

theorem reallocLibs_dangling (h0 : libs ≠ 0) (h : libs ∉ s.goods) (ok : Bool) :
    reallocLibs libs ok s = none := by
  rw [reallocLibs, if_neg h0]
  cases ok with
  | false =>
    change (need libs s).bind (fun p => some (0, p.2)) = _
    rw [need, if_neg h]
    rfl
  | true =>
    change (release libs s).bind (fun p => acquire id p.2) = _
    rw [release, if_neg h]
    rfl

theorem lgLibAdd_noTable (h : Usable ctx.libs s) (malloc : Bool) :
    lgLibAdd ctx false malloc s = some ((-1, ctx), s) := by
  change (reallocLibs ctx.libs false s).bind _ = _
  rw [reallocLibs_false h]
  rfl

theorem lgLibAdd_noName (hs : Sound s) (h : Usable ctx.libs s) : lgLibAdd ctx true false s =
    some ((-1, ctx), ⟨s.goods.erase ctx.libs, s.names + 1⟩) := by
  change (reallocLibs ctx.libs true s).bind _ = _
  rw [reallocLibs_true hs h]
  change (release (s.names + 1) ⟨_, _⟩).bind _ = _
  rw [release, if_pos (Multiset.mem_cons_self ..), Multiset.erase_cons_head]
  rfl

theorem lgLibAdd_full (hs : Sound s) (h : Usable ctx.libs s) : lgLibAdd ctx true true s =
    some ((0, { ctx with
        libs := s.names + 1
        entries := ctx.entries ++ [some (s.names + 2)] }),
      ⟨(s.names + 2) ::ₘ (s.names + 1) ::ₘ s.goods.erase ctx.libs, s.names + 2⟩) := by
  change (reallocLibs ctx.libs true s).bind _ = _
  rw [reallocLibs_true hs h]
  rfl

theorem lgLibAdd_dangling (h0 : ctx.libs ≠ 0) (h : ctx.libs ∉ s.goods) (realloc malloc : Bool) :
    lgLibAdd ctx realloc malloc s = none := by
  change (reallocLibs ctx.libs realloc s).bind _ = _
  rw [reallocLibs_dangling h0 h]
  rfl

theorem freeNames_all {names : List Nat} (hs : s.goods = libs ::ₘ (names : Multiset Nat)) :
    freeNames libs (names.map some) s = some ((), { s with goods := {libs} }) := by
  induction names generalizing s with
  | nil =>
    rw [Multiset.coe_nil] at hs
    exact congrArg (fun g => some ((), (⟨g, s.names⟩ : Store Nat))) hs
  | cons a names ih =>
    have hmem : a ∈ s.goods := by simp [hs]
    have herase : s.goods.erase a = libs ::ₘ (names : Multiset Nat) := by
      rw [hs, ← Multiset.cons_coe, Multiset.cons_swap, Multiset.erase_cons_head]
    change (need libs s).bind (fun p => (release a p.2).bind fun p => freeNames libs _ p.2) = _
    rw [need, if_pos (by simp [hs]), Option.bind_some, release, if_pos hmem, Option.bind_some]
    exact ih herase

theorem freeNames_fails {entry : Option Nat} {entries : List (Option Nat)}
    (h : libs ∉ s.goods ∨ entry = none) : freeNames libs (entry :: entries) s = none := by
  change (need libs s).bind _ = _
  rw [need]
  split
  · rename_i hmem
    rw [h.resolve_left (not_not_intro hmem)]
    rfl
  · rfl

/-- After a call, memory looks as it does at the next stage. -/
def Reaches (call : Proc Nat (Int × ProcessCtx)) (s : Store Nat) (σ : Stage) : Prop :=
  ∃ r s', call s = some (r, s') ∧ Sound s' ∧ σ.Holds r.2 s'

theorem noName_holds {σ σ' : Stage} (hs : Sound s) (h : σ.Holds ctx s)
    (hnext : σ.next (.add true false) = some σ') :
    σ'.Holds ctx ⟨s.goods.erase ctx.libs, s.names + 1⟩ := by
  cases σ with
  | empty =>
    cases hnext
    exact ⟨h.1, h.2.1, h.2.2.symm ▸ Multiset.erase_zero _⟩
  | filled =>
    cases hnext
    obtain ⟨hlibs, names, hne, hentries, hgoods⟩ := h
    refine ⟨⟨hlibs, hs.nodup.notMem_erase⟩, ?_, hentries ▸ mt List.map_eq_nil_iff.mp hne⟩
    rw [hgoods, Multiset.erase_cons_head]
    exact mt (Multiset.coe_eq_zero names).mp hne
  | ended =>
    cases hnext
    exact ⟨h.1, h.2.1, h.2.2.symm ▸ Multiset.erase_zero _⟩
  | patched =>
    cases hnext
    obtain ⟨⟨names, hne, hgoods⟩, entries, hentries⟩ := h
    have hmem : ctx.libs ∈ s.goods := hgoods ▸ Multiset.mem_cons_self ..
    refine ⟨⟨(hs.bounds _ hmem).1.ne', hs.nodup.notMem_erase⟩, ?_, hentries ▸ List.cons_ne_nil _ _⟩
    rwa [hgoods, Multiset.erase_cons_head]
  | dangling => cases hnext

theorem full_holds {σ σ' : Stage} (h : σ.Holds ctx s)
    (hnext : σ.next (.add true true) = some σ') :
    σ'.Holds { ctx with libs := s.names + 1, entries := ctx.entries ++ [some (s.names + 2)] }
      ⟨(s.names + 2) ::ₘ (s.names + 1) ::ₘ s.goods.erase ctx.libs, s.names + 2⟩ := by
  cases σ with
  | empty =>
    cases hnext
    refine ⟨Nat.succ_ne_zero _, [s.names + 2], List.cons_ne_nil _ _, ?_, ?_⟩
    · rw [h.2.1]
      rfl
    · rw [h.2.2, Multiset.erase_zero, Multiset.cons_swap]
      rfl
  | filled =>
    cases hnext
    obtain ⟨-, names, -, hentries, hgoods⟩ := h
    refine ⟨Nat.succ_ne_zero _, names ++ [s.names + 2], by simp, ?_, ?_⟩
    · rw [hentries, List.map_append]
      rfl
    · rw [hgoods, Multiset.erase_cons_head, Multiset.cons_swap, ← Multiset.coe_add,
        add_comm (names : Multiset Nat)]
      rfl
  | ended =>
    cases hnext
    obtain ⟨-, ⟨entries, hentries⟩, -⟩ := h
    refine ⟨⟨_, ?_, Multiset.cons_swap ..⟩, entries ++ _, congrArg (· ++ _) hentries⟩
    exact Multiset.cons_ne_zero
  | patched =>
    cases hnext
    obtain ⟨-, entries, hentries⟩ := h
    refine ⟨⟨_, ?_, Multiset.cons_swap ..⟩, entries ++ _, congrArg (· ++ _) hentries⟩
    exact Multiset.cons_ne_zero
  | dangling => cases hnext

theorem add_reaches {σ σ' : Stage} {realloc malloc : Bool} (hs : Sound s) (h : σ.Holds ctx s)
    (hnext : σ.next (.add realloc malloc) = some σ') :
    Reaches (lgLibAdd ctx realloc malloc) s σ' := by
  have husable : Usable ctx.libs s := by
    cases σ with
    | empty => exact .inl h.1
    | filled =>
      obtain ⟨-, names, -, -, hgoods⟩ := h
      exact .inr (hgoods ▸ Multiset.mem_cons_self ..)
    | ended => exact .inl h.1
    | patched =>
      obtain ⟨⟨names, -, hgoods⟩, -⟩ := h
      exact .inr (hgoods ▸ Multiset.mem_cons_self ..)
    | dangling => cases hnext
  cases realloc with
  | false =>
    obtain rfl : σ = σ' := by cases σ <;> cases malloc <;> cases hnext <;> rfl
    exact ⟨_, _, lgLibAdd_noTable husable malloc, hs, h⟩
  | true =>
    cases malloc with
    | false =>
      refine ⟨_, _, lgLibAdd_noName hs husable, hs.erased _ (Nat.le_succ _), ?_⟩
      exact noName_holds hs h hnext
    | true =>
      refine ⟨_, _, lgLibAdd_full hs husable, (hs.erased _ le_rfl).acquired.acquired, ?_⟩
      exact full_holds h hnext

theorem term_reaches {σ σ' : Stage} (h : σ.Holds ctx s) (hnext : σ.next .term = some σ') :
    Reaches (lgTerm ctx) s σ' := by
  cases σ with
  | empty =>
    obtain ⟨hlibs, hentries, hgoods⟩ := h
    cases hnext
    refine ⟨(0, ⟨.endValue, 0, []⟩), s, ?_, ?_, rfl, rfl, hgoods⟩
    · rw [lgTerm, hlibs, hentries]
      rfl
    · exact ⟨hgoods ▸ Multiset.nodup_zero, fun a ha => by simp [hgoods] at ha⟩
  | filled =>
    obtain ⟨hlibs, names, hne, hentries, hgoods⟩ := h
    cases hnext
    refine ⟨(0, ⟨.endValue, 0, ctx.entries.map fun _ => none⟩), ⟨0, s.names⟩, ?_, ?_, rfl, ?_, rfl⟩
    · have hzero : ({ctx.libs} : Multiset Nat).erase ctx.libs = 0 := Multiset.erase_cons_head _ 0
      change (freeNames ctx.libs ctx.entries s).bind (fun p => (freeLibs ctx.libs p.2).bind _) = _
      rw [hentries, freeNames_all hgoods, Option.bind_some, freeLibs, if_neg hlibs, release,
        if_pos (Multiset.mem_singleton_self _), ← hzero]
      rfl
    · exact ⟨Multiset.nodup_zero, fun a ha => absurd ha (Multiset.notMem_zero a)⟩
    · obtain ⟨a, names, rfl⟩ := List.exists_cons_of_ne_nil hne
      rw [hentries]
      exact ⟨_, rfl⟩
  | ended => cases hnext
  | patched => cases hnext
  | dangling => cases hnext

/-- A call that is not survived. -/
theorem Call.fails {σ : Stage} {c : Call} (h : σ.Holds ctx s) (hnext : σ.next c = none) :
    c.run ctx s = none := by
  have hterm : ∀ entry entries, ctx.entries = entry :: entries →
      (ctx.libs ∉ s.goods ∨ entry = none) → lgTerm ctx s = none := by
    intro entry entries hentries hbad
    change (freeNames ctx.libs ctx.entries s).bind _ = _
    rw [hentries, freeNames_fails hbad]
    rfl
  cases c with
  | init type => cases σ <;> cases hnext
  | add realloc malloc =>
    cases σ with
    | dangling => exact lgLibAdd_dangling h.1.1 h.1.2 realloc malloc
    | _ => cases realloc <;> cases malloc <;> cases hnext
  | term =>
    cases σ with
    | empty => cases hnext
    | filled => cases hnext
    | ended =>
      obtain ⟨hlibs, ⟨entries, hentries⟩, -⟩ := h
      exact hterm _ _ hentries (.inr rfl)
    | patched =>
      obtain ⟨-, entries, hentries⟩ := h
      exact hterm _ _ hentries (.inr rfl)
    | dangling =>
      obtain ⟨entry, entries, hentries⟩ := List.exists_cons_of_ne_nil h.2.2
      exact hterm _ _ hentries (.inl h.1.2)

theorem Call.reaches {σ σ' : Stage} {c : Call} (hs : Sound s) (h : σ.Holds ctx s)
    (hnext : σ.next c = some σ') : Reaches (c.run ctx) s σ' := by
  cases c with
  | init type =>
    obtain rfl : σ = σ' := by cases σ <;> cases hnext <;> rfl
    exact ⟨_, s, rfl, hs, by cases σ <;> exact h⟩
  | add realloc malloc => exact add_reaches hs h hnext
  | term => exact term_reaches h hnext

/-- A run goes through to the stage that its calls lead to, or fails where they lead nowhere. -/
theorem runAll_stage {σ : Stage} (cs : List Call) (hs : Sound s) (h : σ.Holds ctx s) :
    match σ.after cs with
    | some σ' => ∃ ctx' s', runAll ctx cs s = some (ctx', s') ∧ σ'.Holds ctx' s'
    | none => runAll ctx cs s = none := by
  induction cs generalizing σ ctx s with
  | nil => exact ⟨ctx, s, rfl, h⟩
  | cons c cs ih =>
    have hrun : runAll ctx (c :: cs) s = (c.run ctx s).bind fun p => runAll p.1.2 cs p.2 := rfl
    rw [hrun, Stage.after]
    cases hnext : σ.next c with
    | none =>
      rw [Call.fails h hnext]
      rfl
    | some σ₁ =>
      obtain ⟨r, s₁, hcall, hs₁, h₁⟩ := Call.reaches hs h hnext
      rw [hcall]
      exact ih hs₁ h₁

section Since
variable {α : Type} {P : List α → Prop} {Q : α → Prop} {x y : α} {xs : List α}

/-- There was an `x`, in a run of which `P` held so far, and since then all calls were `Q`. -/
def Since (P : List α → Prop) (x : α) (Q : α → Prop) (xs : List α) : Prop :=
  ∃ u v, xs = u ++ x :: v ∧ P u ∧ ∀ y ∈ v, Q y

theorem not_since_nil : ¬Since P x Q [] := by
  rintro ⟨u, v, h, -⟩
  exact absurd h.symm (by simp)

theorem since_snoc : Since P x Q (xs ++ [y]) ↔ y = x ∧ P xs ∨ Q y ∧ Since P x Q xs := by
  constructor
  · rintro ⟨u, v, h, hu, hv⟩
    rcases List.eq_nil_or_concat v with rfl | ⟨v, z, rfl⟩
    · obtain ⟨rfl, hy⟩ := List.append_inj' h rfl
      exact .inl ⟨(List.cons.inj hy).1, hu⟩
    · rw [List.concat_eq_append, ← List.cons_append, ← List.append_assoc] at h
      obtain ⟨rfl, hy⟩ := List.append_inj' h rfl
      obtain rfl := (List.cons.inj hy).1
      rw [List.concat_eq_append] at hv
      exact .inr ⟨hv y (by simp), u, v, rfl, hu, fun z hz => hv z (List.mem_append_left _ hz)⟩
  · rintro (⟨rfl, hP⟩ | ⟨hQ, u, v, rfl, hu, hv⟩)
    · exact ⟨xs, [], rfl, hP, nofun⟩
    · refine ⟨u, v ++ [y], by simp, hu, fun z hz => ?_⟩
      rcases List.mem_append.mp hz with hz | hz
      · exact hv z hz
      · exact List.mem_singleton.mp hz ▸ hQ

end Since

/-- A library was added. -/
def Registered (cs : List Call) : Prop := .add true true ∈ cs

/-- There is a table: a library was added, and `lg_term` was not called since. -/
def Tabled : List Call → Prop := Since (fun _ => True) (.add true true) (· ≠ .term)

/-- `lg_term` was called after a library was added. -/
def Terminated : List Call → Prop := Since Registered .term fun _ => True

/-- The name of another library could not be allocated while there was a table. -/
def Dropped : List Call → Prop := Since Tabled (.add true false) fun _ => True

/-- What may be called after the calls made so far. -/
def Call.Allowed (cs : List Call) : Call → Prop
  | .init _ => True
  | .add _ _ => ¬Dropped cs
  | .term => ¬Dropped cs ∧ ¬Terminated cs

/-- The stages, by the calls that lead there. -/
def Stage.Matches (cs : List Call) : Stage → Prop
  | .empty => ¬Registered cs ∧ ¬Tabled cs ∧ ¬Terminated cs ∧ ¬Dropped cs
  | .filled => Registered cs ∧ Tabled cs ∧ ¬Terminated cs ∧ ¬Dropped cs
  | .ended => Registered cs ∧ ¬Tabled cs ∧ Terminated cs ∧ ¬Dropped cs
  | .patched => Registered cs ∧ Tabled cs ∧ Terminated cs ∧ ¬Dropped cs
  | .dangling => Dropped cs

variable {σ σ' : Stage} {cs : List Call} {c : Call}

theorem registered_snoc : Registered (cs ++ [c]) ↔ Registered cs ∨ c = .add true true := by
  rw [Registered, List.mem_append, List.mem_singleton, eq_comm (b := c)]
  rfl

theorem tabled_snoc : Tabled (cs ++ [c]) ↔ c = .add true true ∨ c ≠ .term ∧ Tabled cs := by
  rw [Tabled, since_snoc, and_true]

theorem terminated_snoc : Terminated (cs ++ [c]) ↔ c = .term ∧ Registered cs ∨ Terminated cs := by
  rw [Terminated, since_snoc, true_and]

theorem dropped_snoc : Dropped (cs ++ [c]) ↔ c = .add true false ∧ Tabled cs ∨ Dropped cs := by
  rw [Dropped, since_snoc, true_and]

theorem matches_snoc (h : σ.Matches cs) (hnext : σ.next c = some σ') : σ'.Matches (cs ++ [c]) := by
  cases c with
  | init type =>
    cases σ <;> cases hnext <;>
      simp_all [Stage.Matches, registered_snoc, tabled_snoc, terminated_snoc, dropped_snoc]
  | add realloc malloc =>
    cases σ <;> cases realloc <;> cases malloc <;> cases hnext <;>
      simp_all [Stage.Matches, registered_snoc, tabled_snoc, terminated_snoc, dropped_snoc]
  | term =>
    cases σ <;> cases hnext <;>
      simp_all [Stage.Matches, registered_snoc, tabled_snoc, terminated_snoc, dropped_snoc]

theorem allowed_iff (h : σ.Matches cs) : c.Allowed cs ↔ (σ.next c).isSome := by
  cases c with
  | init type => cases σ <;> exact iff_of_true trivial rfl
  | add realloc malloc =>
    cases σ <;> cases realloc <;> cases malloc <;>
      simp_all [Stage.Matches, Call.Allowed, Stage.next]
  | term => cases σ <;> simp_all [Stage.Matches, Call.Allowed, Stage.next]

theorem after_snoc (σ : Stage) (cs : List Call) (c : Call) :
    σ.after (cs ++ [c]) = (σ.after cs).bind fun σ' => σ'.next c := by
  induction cs generalizing σ with
  | nil => cases h : σ.next c <;> simp [Stage.after, h]
  | cons d cs ih =>
    rw [List.cons_append, Stage.after, Stage.after, Option.bind_assoc]
    exact congrArg _ (funext ih)

/-- Every call is allowed after the calls before it. -/
def Survivable (cs : List Call) : Prop := ∀ u c v, cs = u ++ c :: v → c.Allowed u

theorem survivable_iff (cs : List Call) : Survivable cs ↔
    ∀ c : Call, ¬Since (fun u => ¬c.Allowed u) c (fun _ => True) cs := by
  constructor
  · rintro h c ⟨u, v, hcs, hno, -⟩
    exact hno (h u c v hcs)
  · intro h u c v hcs
    by_contra hno
    exact h c ⟨u, v, hcs, hno, fun _ _ => trivial⟩

theorem survivable_snoc : Survivable (cs ++ [c]) ↔ Survivable cs ∧ c.Allowed cs := by
  simp only [survivable_iff, since_snoc, true_and, not_or, not_and, not_not]
  constructor
  · intro h
    exact ⟨fun d => (h d).2, (h c).1 rfl⟩
  · rintro ⟨h, hc⟩ d
    exact ⟨fun hd => hd ▸ hc, h d⟩

theorem stage_of (cs : List Call) :
    match Stage.empty.after cs with
    | some σ => Survivable cs ∧ σ.Matches cs
    | none => ¬Survivable cs := by
  induction cs using List.reverseRecOn with
  | nil =>
    refine ⟨fun u c v h => absurd h.symm (by simp), ?_⟩
    exact ⟨List.not_mem_nil, not_since_nil, not_since_nil, not_since_nil⟩
  | append_singleton cs c ih =>
    rw [after_snoc, survivable_snoc]
    cases hafter : Stage.empty.after cs with
    | none =>
      rw [hafter] at ih
      exact fun h => ih h.1
    | some σ =>
      rw [hafter] at ih
      have hallowed := allowed_iff (c := c) ih.2
      rw [Option.bind_some]
      cases hnext : σ.next c with
      | none =>
        rw [hnext] at hallowed
        exact fun h => absurd (hallowed.mp h.2) (by simp)
      | some σ' =>
        rw [hnext] at hallowed
        exact ⟨⟨ih.1, hallowed.mpr rfl⟩, matches_snoc ih.2 hnext⟩

theorem goods_iff (h : σ.Holds ctx s) (hm : σ.Matches cs) :
    s.goods = 0 ↔ ¬Tabled cs ∧ ¬Dropped cs := by
  cases σ with
  | empty => exact iff_of_true h.2.2 ⟨hm.2.1, hm.2.2.2⟩
  | filled =>
    obtain ⟨-, names, -, -, hgoods⟩ := h
    exact iff_of_false (hgoods ▸ Multiset.cons_ne_zero) fun hno => hno.1 hm.2.1
  | ended => exact iff_of_true h.2.2 ⟨hm.2.1, hm.2.2.2⟩
  | patched =>
    obtain ⟨⟨names, -, hgoods⟩, -⟩ := h
    exact iff_of_false (hgoods ▸ Multiset.cons_ne_zero) fun hno => hno.1 hm.2.1
  | dangling => exact iff_of_false h.2.1 fun hno => hno.2 hm

/-- A process that starts with nothing survives the calls if and only if each of them is allowed,
and then it holds no memory if and only if it has no table and has not dropped one. -/
theorem survives_iff (cs : List Call) :
    ((runAll initial cs ⟨0, 0⟩).isSome ↔ Survivable cs) ∧
      ∀ ctx s, runAll initial cs ⟨0, 0⟩ = some (ctx, s) →
        (s.goods = 0 ↔ ¬Tabled cs ∧ ¬Dropped cs) := by
  have hempty : Stage.empty.Holds initial ⟨0, 0⟩ := ⟨rfl, rfl, rfl⟩
  have hsound : Sound ⟨0, 0⟩ :=
    ⟨Multiset.nodup_zero, fun a ha => absurd ha (Multiset.notMem_zero a)⟩
  have hrun := runAll_stage cs hsound hempty
  have hstage := stage_of cs
  cases hafter : Stage.empty.after cs with
  | none =>
    rw [hafter] at hrun hstage
    dsimp only at hrun hstage
    refine ⟨iff_of_false (by simp [hrun]) hstage, fun ctx s h => ?_⟩
    cases hrun.symm.trans h
  | some σ =>
    rw [hafter] at hrun hstage
    obtain ⟨ctx', s', hr, hh⟩ := hrun
    refine ⟨iff_of_true (by simp [hr]) hstage.1, fun ctx s h => ?_⟩
    cases hr.symm.trans h
    exact goods_iff hh hstage.2

example : (runAll initial [.add true true, .term, .add true true, .term] ⟨0, 0⟩).isNone := by decide

end Wtools.Lg
