import Mathlib.Algebra.BigOperators.Group.List.Basic
import Mathlib.Data.Multiset.OrderedMonoid
import Wtools.HandleGoods
import Wtools.Library.AssocList

/-!
# Sessions with handles

A program creates handles in RAM and on files, writes to them, appends one to another, inserts into
them, finalizes and destroys them. Everything it was given belongs to a handle that it still has,
was given back, or is lost, and what is lost is known call by call.
-/

namespace Wtools.Life

open AssocList ByteMemory Ownership

/-- The handles of a program, by its variables. -/
abbrev Live := List (Nat × Handle)

def goodsOf (live : Live) : Multiset Resource := (live.map fun e => e.2.goods).sum

/-- Different variables, and handles that are sane. -/
structure Sane (live : Live) : Prop where
  nodup : (live.map Prod.fst).Nodup
  handles : ∀ e ∈ live, e.2.Sane

def handleAt (i : Nat) (live : Live) : Proc Resource Handle :=
  fun s => (live.lookup i).map (·, s)

/-- What a call has made of the handle in a variable. -/
def refile (i : Nat) (live : Live) : Option Handle → Live
  | some hd => (i, hd) :: others i live
  | none => others i live

/-- The calls of a program; the surroundings may answer each of them in another way. -/
inductive Op where
  | create (i : Nat) (env : Env) (id : Nat) (p : BkvCreate) (l_fd : Int)
  | write (i : Nat) (env : Env) (c : Call)
  | append (i j : Nat) (env : Env)
  | moveTo (i : Nat) (env : Env) (id : Nat) (p_val : BkvVal)
  | finalize (i : Nat) (env : Env)
  | destroy (i : Nat)

/-- `bkv_append` reads the handle in `j`, which has been written to when it is the one in `i`. -/
def copied (i j : Nat) (a hd' : Handle) : Proc Resource Unit :=
  (if i = j then hd' else a).read (List.range a.bkv.writeOffset)

def Op.run : Op → Live → Proc Resource Live
  | .create i env id p l_fd, live => do
    let r ← Life.create env id p 0 l_fd
    return refile i live r.2
  | .write i env c, live => do
    let hd ← handleAt i live
    let hd' ← Life.write env hd c
    return refile i live (some hd')
  | .append i j env, live => do
    let hd ← handleAt i live
    let a ← handleAt j live
    let hd' ← Life.append env hd a.self (copied i j a) a.bkv.toTail
    return refile i live (some hd')
  | .moveTo i env id p_val, live => do
    let hd ← handleAt i live
    let hd' ← setWriteOffset env id hd p_val
    return refile i live (some hd')
  | .finalize i env, live => do
    let hd ← handleAt i live
    let r ← Life.finalize env hd
    return refile i live r.2
  | .destroy i, live => do
    let hd ← handleAt i live
    let r ← Life.destroy hd
    return refile i live r.2

/-- A new handle goes to a variable that has none, and a program uses the handles it has. -/
def Op.Legal (live : Live) : Op → Prop
  | .create i _ _ p l_fd => i ∉ live.map Prod.fst ∧ Clean p l_fd
  | .append i j _ => i ∈ live.map Prod.fst ∧ j ∈ live.map Prod.fst
  | .write i _ _ | .moveTo i _ _ _ | .finalize i _ | .destroy i => i ∈ live.map Prod.fst

/-- A call uses no more of a buffer or mapping than is there: what it stores lies in what its handle
has when it has grown, or has not, and what it copies lies in what the other one has. Nor does it
need more of the nesting stack. -/
def Op.Inside (live : Live) : Op → Prop
  | .create _ _ _ _ _ | .destroy _ => True
  | .write i env c => ∀ hd ∈ live.lookup i, hd.HasRoom env c
  | .append i j env => ∀ hd ∈ live.lookup i, ∀ a ∈ live.lookup j,
      (bkvAppend env hd.bkv a.bkv.toTail).1 = bkvOk →
        hd.TakesTail env a.bkv.toTail ∧ (i ≠ j → a.Reads (List.range a.bkv.writeOffset))
  | .moveTo i env id p_val => ∀ hd ∈ live.lookup i, hd.GivesCopy env id p_val
  | .finalize i env => ∀ hd ∈ live.lookup i, hd.TakesEnd env

/-- The variable of a call. -/
def Op.target : Op → Nat
  | .create i _ _ _ _ | .write i _ _ | .append i _ _ | .moveTo i _ _ _ | .finalize i _
  | .destroy i => i

/-- What is lost in a call, with what is in its variable before and after it. -/
def Op.loss (before after : Option Handle) : Op → Multiset ResourceKind
  | .create _ env _ p _ => if after.isSome then 0 else bufferKinds env p
  | .write _ env c => before.elim 0 fun hd => kinds (growthLoss hd (exec env hd.bkv c).2)
  | .append _ _ _ => 0
  | .moveTo _ env id p_val => before.elim 0 fun hd => copyLoss env id hd.bkv p_val
  | .finalize _ _ | .destroy _ =>
    if after.isSome then 0 else before.elim 0 fun hd => kinds hd.remains

variable {live live' : Live} {i : Nat} {hd : Handle}

theorem goodsOf_perm (h : live.Perm live') : goodsOf live = goodsOf live' :=
  (h.map _).sum_eq

theorem goodsOf_cons (i : Nat) (hd : Handle) (live : Live) :
    goodsOf ((i, hd) :: live) = hd.goods + goodsOf live :=
  List.sum_cons

theorem goodsOf_mem {e : Nat × Handle} {r : Resource} (he : e ∈ live) (hr : r ∈ e.2.goods) :
    r ∈ goodsOf live := by
  induction live with
  | nil => cases he
  | cons e' live ih =>
    rw [goodsOf_cons]
    rcases List.mem_cons.mp he with rfl | he
    · exact Multiset.mem_add.mpr (.inl hr)
    · exact Multiset.mem_add.mpr (.inr (ih he))

theorem goodsOf_others (h : Sane live) (i : Nat) :
    goodsOf live = (live.lookup i).elim 0 Handle.goods + goodsOf (others i live) := by
  by_cases hi : i ∈ live.map Prod.fst
  · obtain ⟨hd, hhd⟩ := exists_lookup hi
    rw [hhd, goodsOf_perm (perm_of_lookup h.nodup hhd), goodsOf_cons]
    rfl
  · rw [lookup_eq_none hi, others_eq_self hi]
    exact (zero_add _).symm

theorem goodsOf_at (h : Sane live) (hi : live.lookup i = some hd) :
    goodsOf live = hd.goods + goodsOf (others i live) := by
  rw [goodsOf_others h i, hi]
  rfl

theorem goodsOf_refile (i : Nat) (live : Live) (r : Option Handle) :
    goodsOf (refile i live r) = r.elim 0 Handle.goods + goodsOf (others i live) := by
  cases r with
  | none => exact (zero_add _).symm
  | some hd => exact goodsOf_cons i hd _

theorem lookup_refile (i : Nat) (live : Live) (r : Option Handle) :
    (refile i live r).lookup i = r := by
  cases r with
  | none => exact lookup_eq_none (not_mem_keys_others i live)
  | some hd => exact List.lookup_cons_self

theorem Sane.at (h : Sane live) (hi : live.lookup i = some hd) : hd.Sane :=
  h.handles (i, hd) ((perm_of_lookup h.nodup hi).mem_iff.mpr List.mem_cons_self)

theorem Sane.refile (h : Sane live) {r : Option Handle} (hr : ∀ hd ∈ r, hd.Sane) :
    Sane (refile i live r) := by
  have hothers : Sane (others i live) :=
    ⟨nodup_others h.nodup, fun e he => h.handles e (List.mem_of_mem_filter he)⟩
  cases r with
  | none => exact hothers
  | some hd =>
    refine ⟨List.nodup_cons.mpr ⟨not_mem_keys_others i live, hothers.nodup⟩, ?_⟩
    exact List.forall_mem_cons.mpr ⟨hr hd rfl, hothers.handles⟩

/-- What a call does with the handle in its variable. -/
def Op.Handled (op : Op) (before after : Option Handle) (own : Multiset Resource) : Prop :=
  ∃ gone, own = after.elim 0 Handle.goods + gone ∧ kinds gone = op.loss before after ∧
    ∀ hd ∈ after, hd.Sane

/-- What a call does with all handles. -/
def Op.Settles (op : Op) (live live' : Live) (own : Multiset Resource) : Prop :=
  ∃ gone, own = goodsOf live' + gone ∧
    kinds gone = op.loss (live.lookup op.target) (live'.lookup op.target) ∧ Sane live'

section
variable {α : Type} {call : Proc Resource α} {f : α → Option Handle} {before : Option Handle}

theorem refile_settles (op : Op) (h : Sane live) (hi : live.lookup op.target = before)
    (hcall : Owns (before.elim 0 Handle.goods + goodsOf (others op.target live)) call
      fun a own => ∃ own', own = own' + goodsOf (others op.target live) ∧
        op.Handled before (f a) own') :
    Owns (goodsOf live) (call >>= fun a => pure (refile op.target live (f a)))
      (op.Settles live) := by
  rw [goodsOf_others h op.target, hi]
  refine hcall.bind fun a own hown => Owns.pure ?_
  obtain ⟨own, rfl, gone, rfl, hgone, hsane⟩ := hown
  refine ⟨gone, ?_, ?_, h.refile hsane⟩
  · rw [goodsOf_refile, add_right_comm]
  · rw [lookup_refile, hi, hgone]

/-- What is done with one handle leaves the others alone. -/
theorem refile_owns (op : Op) (h : Sane live) (hi : live.lookup op.target = before)
    (hcall : Owns (before.elim 0 Handle.goods) call fun a own => op.Handled before (f a) own) :
    Owns (goodsOf live) (call >>= fun a => pure (refile op.target live (f a)))
      (op.Settles live) :=
  refile_settles op h hi (hcall.frame _)

end

theorem handleAt_bind {α : Type} (hi : live.lookup i = some hd) (f : Handle → Proc Resource α) :
    handleAt i live >>= f = f hd := by
  funext s
  change ((live.lookup i).map (·, s)).bind (fun p => f p.1 p.2) = _
  rw [hi]
  rfl

theorem sane_none : ∀ hd ∈ (none : Option Handle), hd.Sane :=
  fun hd h => absurd h (Option.not_mem_none hd)

theorem handled_created {env : Env} {id : Nat} {p : BkvCreate} {op : Op} {r : Option Handle}
    {own : Multiset Resource} (h : Created env id p own r)
    (hloss : op.loss none r = if r.isSome then 0 else bufferKinds env p) :
    op.Handled none r own := by
  rw [Op.Handled, hloss]
  cases r with
  | none => exact ⟨own, (zero_add _).symm, h.1, sane_none⟩
  | some hd =>
    exact ⟨0, h.goods.trans (add_zero _).symm, rfl, fun _ he => Option.some.inj he ▸ h.sane⟩

theorem handled_ended {op : Op} {r : Option Handle} {own : Multiset Resource} (h : Ended hd own r)
    (hloss : op.loss (some hd) r = if r.isSome then 0 else kinds hd.remains) :
    op.Handled (some hd) r own := by
  rw [Op.Handled, hloss]
  cases r with
  | none => exact ⟨hd.remains, h.trans (zero_add _).symm, rfl, sane_none⟩
  | some hd' => exact ⟨0, h.1.trans (add_zero _).symm, rfl, fun _ he => Option.some.inj he ▸ h.2⟩

/-- What is stored behind its own bytes can be read before them. -/
theorem reads_of_stores {n : Nat} (h : hd.Stores (List.range' n n)) : hd.Reads (List.range n) := by
  intro i hi
  rw [List.mem_range] at hi
  obtain ⟨⟨hptr, hroom⟩, -⟩ := h (n + i) (by simp; omega)
  exact ⟨hptr, by omega⟩

section Append
variable {j : Nat} {env : Env} {a : Handle}

theorem copied_owns (h : Sane live) (hi : live.lookup i = some hd) (hj : live.lookup j = some a)
    (hreads : i ≠ j → a.Reads (List.range a.bkv.writeOffset)) {hd' : Handle}
    (hst : hd'.Stores (List.range' hd.bkv.writeOffset a.bkv.toTail.writeOffset)) :
    Owns (hd'.goods + goodsOf (others i live)) (copied i j a hd') fun _ own =>
      own = hd'.goods + goodsOf (others i live) := by
  rw [copied]
  by_cases hij : i = j
  · subst hij
    obtain rfl := Option.some.inj (hi.symm.trans hj)
    rw [if_pos rfl]
    exact read_owns (reads_of_stores hst) fun hptr =>
      Multiset.mem_add.mpr (.inl (place_mem_goods hptr))
  · rw [if_neg hij]
    refine read_owns (hreads hij) fun hptr => Multiset.mem_add.mpr (.inr ?_)
    have hmem : (j, a) ∈ live := (perm_of_lookup h.nodup hj).mem_iff.mpr List.mem_cons_self
    refine goodsOf_mem (List.mem_filter.mpr ⟨hmem, ?_⟩) (place_mem_goods hptr)
    simpa using Ne.symm hij

/-- A copy that is not there, or that there is no room for. -/
theorem copied_fails (h : Sane live) (hi : live.lookup i = some hd) (hj : live.lookup j = some a)
    (hok : (bkvAppend env hd.bkv a.bkv.toTail).1 = bkvOk)
    (hbad : ¬(hd.TakesTail env a.bkv.toTail ∧ (i ≠ j → a.Reads (List.range a.bkv.writeOffset)))) :
    Fails (hd.goods + goodsOf (others i live))
      (Life.append env hd a.self (copied i j a) a.bkv.toTail) := by
  have hsrc : .block a.self ∈ hd.goods + goodsOf (others i live) := by
    rw [← goodsOf_at h hi, goodsOf_at h hj]
    exact Multiset.mem_add.mpr (.inl (self_mem_goods a))
  refine append_fails hsrc hok fun hd' _ hst => ?_
  by_cases hreads : (if i = j then hd' else a).Reads (List.range a.bkv.writeOffset)
  · have hfit : ¬hd.TakesTail env a.bkv.toTail := fun hfit => hbad ⟨hfit, fun hij => by
      rwa [if_neg hij] at hreads⟩
    intro s rest hs
    change (copied i j a hd' s).bind _ = none
    cases hrun : copied i j a hd' s with
    | none => rfl
    | some r =>
      rw [Option.bind_some]
      have hstray : Fails r.2.goods
          (hd'.store (List.range' hd.bkv.writeOffset a.bkv.toTail.writeOffset)) :=
        store_fails (mt hst.mp hfit)
      exact (hstray.bind _) r.2 0 (add_zero _).symm
  · exact (read_fails hreads).bind _

end Append

/-- A call that stays inside goes through, and what it loses is known. -/
theorem Op.owns {op : Op} (h : Sane live) (hop : op.Legal live) (hin : op.Inside live) :
    Owns (goodsOf live) (op.run live) (op.Settles live) := by
  cases op with
  | create i env id p l_fd =>
    obtain ⟨hi, hp⟩ := hop
    refine refile_owns (.create i env id p l_fd) h (lookup_eq_none hi)
      ((create_owns env id hp).mono fun r own hown => ?_)
    exact handled_created hown.2 rfl
  | write i env c =>
    obtain ⟨hd, hi⟩ := exists_lookup hop
    rw [Op.run, handleAt_bind hi]
    refine refile_owns (.write i env c) h hi ((write_owns (hin hd hi)).mono fun hd' own hown => ?_)
    obtain ⟨rfl, hgrown⟩ := hown
    have hsane := (h.at hi).kept hgrown.endHdl (hgrown.bkv ▸ (exec_regrown env hd.bkv c).endHdl)
    exact ⟨_, rfl, rfl, fun _ he => Option.some.inj he ▸ hsane⟩
  | append i j env =>
    obtain ⟨hd, hi⟩ := exists_lookup hop.1
    obtain ⟨a, hj⟩ := exists_lookup hop.2
    rw [Op.run, handleAt_bind hi, handleAt_bind hj]
    have hsrc : .block a.self ∈ hd.goods + goodsOf (others i live) := by
      rw [← goodsOf_at h hi, goodsOf_at h hj]
      exact Multiset.mem_add.mpr (.inl (self_mem_goods a))
    have hfit : hd.TakesTail env a.bkv.toTail := fun hok => (hin hd hi a hj hok).1 hok
    refine refile_settles (.append i j env) h hi ((append_owns hsrc hfit fun hok hd' _ hst =>
      copied_owns h hi hj (hin hd hi a hj hok).2 hst).mono fun hd' own hown => ?_)
    obtain ⟨rfl, hbkv, hend, -⟩ := hown
    have hsane := (h.at hi).kept hend (hbkv ▸ append_endHdl ..)
    exact ⟨_, rfl, 0, (add_zero _).symm, rfl, fun _ he => Option.some.inj he ▸ hsane⟩
  | moveTo i env id p_val =>
    obtain ⟨hd, hi⟩ := exists_lookup hop
    rw [Op.run, handleAt_bind hi]
    refine refile_owns (.moveTo i env id p_val) h hi
      ((setWriteOffset_owns (hin hd hi) (h.at hi)).mono fun hd' own hown => ?_)
    obtain ⟨⟨lost, rfl, hlost⟩, -, hsane⟩ := hown
    exact ⟨lost, rfl, hlost, fun _ he => Option.some.inj he ▸ hsane⟩
  | finalize i env =>
    obtain ⟨hd, hi⟩ := exists_lookup hop
    rw [Op.run, handleAt_bind hi]
    exact refile_owns (.finalize i env) h hi ((finalize_owns (h.at hi) (hin hd hi)).mono
      fun r own hown => handled_ended hown.2 rfl)
  | destroy i =>
    obtain ⟨hd, hi⟩ := exists_lookup hop
    rw [Op.run, handleAt_bind hi]
    exact refile_owns (.destroy i) h hi ((destroy_owns (h.at hi)).mono
      fun r own hown => handled_ended hown.2.1 rfl)

def runAll : List Op → Live → Proc Resource Live
  | [], live => pure live
  | op :: ops, live => do
    let live' ← op.run live
    runAll ops live'

/-- Every call of a run stays inside, in the state that it is made in. -/
def InsideRun : List Op → Live → Process → Prop
  | [], _, _ => True
  | op :: ops, live, s => op.Inside live ∧ ∀ r ∈ op.run live s, InsideRun ops r.1 r.2

def LegalRun : List Op → Live → Process → Prop
  | [], _, _ => True
  | op :: ops, live, s => op.Legal live ∧ ∀ r ∈ op.run live s, LegalRun ops r.1 r.2

/-- What is lost in a run. -/
def lossOf : List Op → Live → Process → Multiset ResourceKind
  | [], _, _ => 0
  | op :: ops, live, s =>
    match op.run live s with
    | none => 0
    | some r => op.loss (live.lookup op.target) (r.1.lookup op.target) + lossOf ops r.1 r.2

instance (p : BkvCreate) (l_fd : Int) : Decidable (Clean p l_fd) :=
  inferInstanceAs (Decidable (_ ∧ _))

instance (live : Live) (op : Op) : Decidable (op.Legal live) :=
  match op with
  | .create _ _ _ _ _ => inferInstanceAs (Decidable (_ ∧ _))
  | .append _ _ _ => inferInstanceAs (Decidable (_ ∧ _))
  | .write _ _ _ | .moveTo _ _ _ _ | .finalize _ _ | .destroy _ =>
    inferInstanceAs (Decidable (_ ∈ _))

instance decidableLegalRun :
    (ops : List Op) → (live : Live) → (s : Process) → Decidable (LegalRun ops live s)
  | [], _, _ => .isTrue trivial
  | _ :: ops, _, _ =>
    haveI := fun r : Live × Process => decidableLegalRun ops r.1 r.2
    inferInstanceAs (Decidable (_ ∧ _))

theorem sane_nil : Sane [] := ⟨List.nodup_nil, fun _ h => absurd h List.not_mem_nil⟩

/-- A call that does not stay inside does not go through. -/
theorem Op.fails {op : Op} (h : Sane live) (hop : op.Legal live) (hin : ¬op.Inside live) :
    Fails (goodsOf live) (op.run live) := by
  cases op with
  | create i env id p l_fd => exact absurd trivial hin
  | destroy i => exact absurd trivial hin
  | write i env c =>
    obtain ⟨hd, hi⟩ := exists_lookup hop
    have hfit : ¬hd.HasRoom env c := fun hfit => hin fun hd' hi' =>
      Option.some.inj (hi.symm.trans hi') ▸ hfit
    rw [Op.run, handleAt_bind hi, goodsOf_at h hi]
    exact ((write_fails hfit).frame _).bind _
  | append i j env =>
    obtain ⟨hd, hi⟩ := exists_lookup hop.1
    obtain ⟨a, hj⟩ := exists_lookup hop.2
    obtain ⟨hok, hbad⟩ := Classical.not_imp.mp fun hgood => hin fun hd' hi' a' hj' => by
      cases hi.symm.trans hi'
      cases hj.symm.trans hj'
      exact hgood
    rw [Op.run, handleAt_bind hi, handleAt_bind hj, goodsOf_at h hi]
    exact (copied_fails h hi hj hok hbad).bind _
  | moveTo i env id p_val =>
    obtain ⟨hd, hi⟩ := exists_lookup hop
    have hcopy : ¬hd.GivesCopy env id p_val := fun hcopy => hin fun hd' hi' =>
      Option.some.inj (hi.symm.trans hi') ▸ hcopy
    rw [Op.run, handleAt_bind hi, goodsOf_at h hi]
    exact ((setWriteOffset_fails hcopy).frame _).bind _
  | finalize i env =>
    obtain ⟨hd, hi⟩ := exists_lookup hop
    have hfit : ¬hd.TakesEnd env := fun hfit => hin fun hd' hi' =>
      Option.some.inj (hi.symm.trans hi') ▸ hfit
    rw [Op.run, handleAt_bind hi, goodsOf_at h hi]
    exact ((finalize_fails (h.at hi) hfit).frame _).bind _

/-- A run goes through if and only if its calls stay inside. -/
theorem runAll_isSome {ops : List Op} {s : Process} {rest : Multiset Resource} (h : Sane live)
    (hlegal : LegalRun ops live s) (hs : s.goods = goodsOf live + rest) :
    (runAll ops live s).isSome ↔ InsideRun ops live s := by
  induction ops generalizing live s rest with
  | nil => exact iff_of_true rfl trivial
  | cons op ops ih =>
    obtain ⟨hop, hlegal⟩ := hlegal
    have hcons : runAll (op :: ops) live s = (op.run live s).bind fun r => runAll ops r.1 r.2 := rfl
    rw [hcons, InsideRun]
    by_cases hin : op.Inside live
    · obtain ⟨live₁, s₁, own, hrun, hs₁, gone, rfl, -, h₁⟩ := op.owns h hop hin s rest hs
      rw [hrun, Option.bind_some, ih h₁ (hlegal (live₁, s₁) hrun) (hs₁.trans (add_assoc ..))]
      exact ⟨fun hrest => ⟨hin, fun r hr => Option.some.inj hr ▸ hrest⟩,
        fun hrest => hrest.2 (live₁, s₁) rfl⟩
    · rw [op.fails h hop hin s rest hs]
      exact iff_of_false (by simp) fun hall => hin hall.1

theorem runAll_accounts {ops : List Op} {s : Process} {rest : Multiset Resource} (h : Sane live)
    (hlegal : LegalRun ops live s) (hin : InsideRun ops live s) (hs : s.goods = goodsOf live + rest) :
    ∃ live' s' gone, runAll ops live s = some (live', s') ∧
      s'.goods = goodsOf live' + gone + rest ∧ kinds gone = lossOf ops live s := by
  induction ops generalizing live s rest with
  | nil => exact ⟨live, s, 0, rfl, by rw [hs, add_zero], rfl⟩
  | cons op ops ih =>
    obtain ⟨hop, hlegal⟩ := hlegal
    obtain ⟨hin, hinside⟩ := hin
    obtain ⟨live₁, s₁, own, hrun, hs₁, gone₁, rfl, hgone₁, h₁⟩ := op.owns h hop hin s rest hs
    obtain ⟨live', s', gone, hrun', hs', hgone⟩ :=
      ih h₁ (hlegal (live₁, s₁) hrun) (hinside (live₁, s₁) hrun) (hs₁.trans (add_assoc ..))
    refine ⟨live', s', gone + gone₁, ?_, ?_, ?_⟩
    · change (op.run live s).bind (fun r => runAll ops r.1 r.2) = _
      rw [hrun]
      exact hrun'
    · rw [hs', ← add_assoc, ← add_assoc]
    · rw [kinds_add, hgone, hgone₁, lossOf, hrun, add_comm]

/-- A handle in RAM is written to, appended to itself and destroyed; one on a file is written to,
finalized and left open. -/
def calls : List Op :=
  [.create 1 calmEnv 0 { bkvCreateInit with createType := .workInRam } (-1),
    .create 2 calmEnv 1 { bkvCreateInit with
      createType := .openFileCreatAndWrite, filename := "test_file.db", mode := 0x1FF } (-1),
    .write 1 calmEnv (.opening .map 0), .write 2 calmEnv (.opening .map 0),
    .write 2 calmEnv (.add (.keyed 3 (.str (List.replicate 200 97)))),
    .append 1 1 calmEnv, .moveTo 1 calmEnv 2 { bkvValInitValue with priv := 2 },
    .finalize 1 calmEnv, .finalize 2 calmEnv]

def noProcess : Process := ⟨0, 0⟩

/-- Nothing is lost in a call: a `bkv_create` that fails had taken nothing, no file grows that has a
mapping, the copy of `bkv_write_offset_set` gets its handle, and a handle that ends is in RAM and
has no `end_hdl`. -/
def Op.Tidy (before after : Option Handle) : Op → Prop
  | .create _ env _ p _ => after.isSome ∨ bufferKinds env p = 0
  | .write _ env c => ∀ hd ∈ before, hd.bkv.fd ≠ -1 → hd.ptr ≠ 0 →
      (exec env hd.bkv c).2.memSize = hd.bkv.memSize
  | .append _ _ _ => True
  | .moveTo _ env _ p_val => ∀ hd ∈ before, Copies hd.bkv p_val →
      env.malloc (hd.bkv.memSize - offsetOf p_val) → env.mallocHandle
  | .finalize _ _ | .destroy _ =>
    after.isSome ∨ ∀ hd ∈ before, hd.bkv.fd = -1 ∧ hd.endHdl = none

def TidyRun : List Op → Live → Process → Prop
  | [], _, _ => True
  | op :: ops, live, s => ∀ r ∈ op.run live s,
    op.Tidy (live.lookup op.target) (r.1.lookup op.target) ∧ TidyRun ops r.1 r.2

theorem growthLoss_eq_zero {h : Bkv} : kinds (growthLoss hd h) = 0 ↔
    (hd.bkv.fd ≠ -1 → hd.ptr ≠ 0 → h.memSize = hd.bkv.memSize) := by
  rw [kinds_eq_zero, growthLoss, mappingAt]
  by_cases hsize : h.memSize = hd.bkv.memSize
  · simp [hsize]
  · by_cases hram : hd.bkv.fd = -1
    · simp [hram]
    · by_cases hptr : hd.ptr = 0 <;> simp [hsize, hram, hptr]

theorem remains_eq_zero : kinds hd.remains = 0 ↔ hd.bkv.fd = -1 ∧ hd.endHdl = none := by
  rw [kinds_eq_zero, Handle.remains, Handle.kept]
  by_cases hram : hd.bkv.fd = -1
  · rw [if_pos hram]
    cases hd.endHdl <;> simp [hram]
  · simp [hram]

theorem copy_none {env : Env} {id : Nat} {p : BkvCreate} (hp : p.createType = .unsafeInputBuffer) :
    (bkvCreate env id p).2 = none ↔ env.mallocHandle = false := by
  refine ⟨fun hnone => ?_, fun hm => bkvCreate_none (.inr hm)⟩
  have hopen : ∃ o, (openBuffer env id p).2 = some o := by
    rw [openBuffer, hp]
    dsimp only
    split
    all_goals exact ⟨_, rfl⟩
  obtain ⟨o, ho⟩ := hopen
  by_contra hm
  obtain ⟨_, hsome, -⟩ := bkvCreate_some ho (by simpa using hm)
  simp [hsome] at hnone

theorem copyLoss_eq_zero {env : Env} {id : Nat} {h : Bkv} {p_val : BkvVal} :
    copyLoss env id h p_val = 0 ↔
      (Copies h p_val → env.malloc (h.memSize - offsetOf p_val) → env.mallocHandle) := by
  simp only [copyLoss, copy_none (p := copyOf h (offsetOf p_val)) rfl]
  by_cases hc : Copies h p_val
  · have hlength : ((copyOf h (offsetOf p_val)).inputPtrLength : Int) =
        h.memSize - offsetOf p_val :=
      Int.toNat_of_nonneg (Int.sub_nonneg.mpr hc.2.2)
    have hkinds : bufferKinds env (copyOf h (offsetOf p_val)) =
        if env.malloc (h.memSize - offsetOf p_val) then {.block} else 0 := by
      rw [← hlength]
      rfl
    rw [hkinds]
    cases env.mallocHandle <;> cases env.malloc (h.memSize - offsetOf p_val) <;> simp [hc]
  · simp [hc]

theorem ending_eq_zero {before after : Option Handle} :
    (if after.isSome then 0 else before.elim 0 fun hd => kinds hd.remains) = 0 ↔
      (after.isSome ∨ ∀ hd ∈ before, hd.bkv.fd = -1 ∧ hd.endHdl = none) := by
  cases after with
  | some hd => exact iff_of_true rfl (.inl rfl)
  | none =>
    cases before with
    | none => exact iff_of_true rfl (.inr fun hd h => absurd h (Option.not_mem_none hd))
    | some hd => simpa using remains_eq_zero

theorem Op.loss_eq_zero {op : Op} {before after : Option Handle} :
    op.loss before after = 0 ↔ op.Tidy before after := by
  cases op with
  | create i env id p l_fd =>
    rw [loss, Tidy]
    split <;> simp_all
  | write i env c =>
    cases before with
    | none => exact iff_of_true rfl fun hd h => absurd h (Option.not_mem_none hd)
    | some hd => simpa [loss, Tidy] using growthLoss_eq_zero
  | append i j env => exact iff_of_true rfl trivial
  | moveTo i env id p_val =>
    cases before with
    | none => exact iff_of_true rfl fun hd h => absurd h (Option.not_mem_none hd)
    | some hd => simpa [loss, Tidy] using copyLoss_eq_zero
  | finalize i env => exact ending_eq_zero
  | destroy i => exact ending_eq_zero

theorem lossOf_eq_zero {ops : List Op} {s : Process} :
    lossOf ops live s = 0 ↔ TidyRun ops live s := by
  induction ops generalizing live s with
  | nil => exact iff_of_true rfl trivial
  | cons op ops ih =>
    rw [lossOf, TidyRun]
    cases op.run live s with
    | none => exact iff_of_true rfl fun hd h => absurd h (Option.not_mem_none hd)
    | some r =>
      refine add_eq_zero.trans ?_
      rw [Op.loss_eq_zero, ih]
      exact ⟨fun h _ hr => Option.some.inj hr ▸ h, fun h => h r rfl⟩

/-- A program that has got rid of its handles has given back all it was given if and only if every
call was tidy. -/
theorem session_gives_back_iff {ops : List Op} {s s' : Process} (hlegal : LegalRun ops [] s)
    (hrun : runAll ops [] s = some ([], s')) : s'.goods = s.goods ↔ TidyRun ops [] s := by
  have hin := (runAll_isSome sane_nil hlegal (zero_add s.goods).symm).mp
    (Option.isSome_iff_exists.mpr ⟨_, hrun⟩)
  obtain ⟨live, s₁, gone, hrun₁, hs', hgone⟩ :=
    runAll_accounts sane_nil hlegal hin (zero_add s.goods).symm
  cases hrun₁.symm.trans hrun
  rw [hs', show goodsOf [] = 0 from rfl, zero_add, add_eq_right, ← kinds_eq_zero, hgone,
    lossOf_eq_zero]

/-- A handle in RAM. -/
def ramCalls : List Op :=
  [.create 1 calmEnv 0 { bkvCreateInit with createType := .workInRam } (-1),
    .write 1 calmEnv (.opening .map 0),
    .write 1 calmEnv (.add (.keyed 3 (.str (List.replicate 200 97)))), .destroy 1]

theorem session_gives_back_ram : LegalRun ramCalls [] noProcess ∧
    ∃ s', runAll ramCalls [] noProcess = some ([], s') ∧
      (s'.goods = noProcess.goods ↔ TidyRun ramCalls [] noProcess) := by
  have hlegal : LegalRun ramCalls [] noProcess := by decide +kernel
  have hlength : (runAll ramCalls [] noProcess).map (fun r => r.1.length) = some 0 := by
    decide +kernel
  obtain ⟨⟨live, s'⟩, hrun, hnil⟩ := Option.map_eq_some_iff.mp hlength
  obtain rfl := List.eq_nil_of_length_eq_zero hnil
  exact ⟨hlegal, s', hrun, session_gives_back_iff hlegal hrun⟩

end Wtools.Life
