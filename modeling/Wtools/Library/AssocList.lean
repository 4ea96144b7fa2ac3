import Mathlib.Data.List.Perm.Basic

/-!
# Association lists

What is filed under one key, and what is filed under the others.
-/

namespace Wtools.AssocList

variable {κ π : Type} [DecidableEq κ] {s t : κ} {x : π} {l : List (κ × π)}

/-- What is filed under the other keys. -/
def others (s : κ) (l : List (κ × π)) : List (κ × π) := l.filter fun e => e.1 ≠ s

theorem others_eq_self (h : s ∉ l.map Prod.fst) : others s l = l := by
  refine List.filter_eq_self.mpr fun e he => ?_
  have hne : e.1 ≠ s := fun hes => h (hes ▸ List.mem_map_of_mem he)
  simpa using hne

theorem mem_keys_others (hst : t ≠ s) (h : t ∈ l.map Prod.fst) : t ∈ (others s l).map Prod.fst := by
  obtain ⟨e, he, rfl⟩ := List.mem_map.mp h
  exact List.mem_map_of_mem (List.mem_filter.mpr ⟨he, by simpa using hst⟩)

theorem not_mem_keys_others (s : κ) (l : List (κ × π)) : s ∉ (others s l).map Prod.fst := by
  intro h
  obtain ⟨e, he, rfl⟩ := List.mem_map.mp h
  simpa using (List.mem_filter.mp he).2

theorem nodup_others (h : (l.map Prod.fst).Nodup) : ((others s l).map Prod.fst).Nodup :=
  h.sublist (List.filter_sublist.map _)

theorem others_map {ρ : Type} (f : π → ρ) (s : κ) (l : List (κ × π)) :
    others s (l.map fun e => (e.1, f e.2)) = (others s l).map fun e => (e.1, f e.2) :=
  List.filter_map

theorem lookup_eq_none (h : s ∉ l.map Prod.fst) : l.lookup s = none := by
  refine List.lookup_eq_none_iff.mpr fun e he => ?_
  have hne : s ≠ e.1 := fun hes => h (hes ▸ List.mem_map_of_mem he)
  simpa using hne

theorem exists_lookup (h : s ∈ l.map Prod.fst) : ∃ x, l.lookup s = some x := by
  induction l with
  | nil => cases h
  | cons e l ih =>
    by_cases hes : s = e.1
    · exact ⟨e.2, by rw [hes, List.lookup_cons_self]⟩
    · rw [List.lookup_cons, beq_eq_false_iff_ne.mpr hes]
      exact ih ((List.mem_cons.mp h).resolve_left hes)

/-- The entry of a key comes first, the others follow. -/
theorem perm_of_lookup (h : (l.map Prod.fst).Nodup) (hs : l.lookup s = some x) :
    l.Perm ((s, x) :: others s l) := by
  induction l with
  | nil => cases hs
  | cons e l ih =>
    obtain ⟨he, hl⟩ := List.nodup_cons.mp h
    by_cases hes : s = e.1
    · subst hes
      obtain rfl := Option.some.inj (List.lookup_cons_self.symm.trans hs)
      rw [others, List.filter_cons_of_neg (by simp)]
      exact List.Perm.of_eq (congrArg _ (others_eq_self he).symm)
    · rw [List.lookup_cons, beq_eq_false_iff_ne.mpr hes] at hs
      rw [others, List.filter_cons_of_pos (by simpa using Ne.symm hes)]
      exact ((ih hl hs).cons e).trans (.swap ..)

section Held
variable [Inhabited π]

/-- What is filed under a key. -/
def held (s : κ) (l : List (κ × π)) : π := (l.lookup s).getD default

theorem held_cons_self (s : κ) (x : π) (l : List (κ × π)) : held s ((s, x) :: l) = x := by
  rw [held, List.lookup_cons_self, Option.getD_some]

theorem held_cons_of_ne (h : s ≠ t) : held s ((t, x) :: l) = held s l := by
  rw [held, held, List.lookup_cons, beq_eq_false_iff_ne.mpr h]

theorem held_others (hst : t ≠ s) : held t (others s l) = held t l := by
  induction l with
  | nil => rfl
  | cons e l ih =>
    by_cases hes : e.1 = s
    · rw [others, List.filter_cons_of_neg (by simpa using hes), held_cons_of_ne (hes ▸ hst)]
      exact ih
    · rw [others, List.filter_cons_of_pos (by simpa using hes)]
      by_cases het : t = e.1
      · rw [het, held_cons_self, held_cons_self]
      · rw [held_cons_of_ne het, held_cons_of_ne het]
        exact ih

theorem perm_others (h : (l.map Prod.fst).Nodup) (hs : s ∈ l.map Prod.fst) :
    l.Perm ((s, held s l) :: others s l) := by
  obtain ⟨x, hx⟩ := exists_lookup hs
  rw [held, hx]
  exact perm_of_lookup h hx

theorem held_map {ρ : Type} [Inhabited ρ] (f : π → ρ) (hf : f default = default) (s : κ)
    (l : List (κ × π)) : held s (l.map fun e => (e.1, f e.2)) = f (held s l) := by
  induction l with
  | nil => exact hf.symm
  | cons e l ih =>
    rw [List.map_cons]
    by_cases hes : s = e.1
    · rw [hes, held_cons_self, held_cons_self]
    · rw [held_cons_of_ne hes, held_cons_of_ne hes, ih]

end Held

end Wtools.AssocList
