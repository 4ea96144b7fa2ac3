import Mathlib.Data.List.Basic
import Mathlib.Logic.Function.Basic

/-!
# Linked lists

A memory of links gives, at an address, a value and the next address. A list of cells is laid out
in it up to an end when each of its cells links to the next one and the last one to the end.
-/

namespace LinkedList

variable {α β : Type} {F G : α → Option (β × α)} {l l₁ l₂ : List (α × β)} {b c : α}

/-- The address of the first cell, or the end. -/
def start : List (α × β) → α → α
  | [], b => b
  | cell :: _, _ => cell.1

@[simp] theorem start_nil : start ([] : List (α × β)) b = b := rfl

@[simp] theorem start_cons (cell : α × β) : start (cell :: l) b = cell.1 := rfl

theorem start_append : start (l₁ ++ l₂) b = start l₁ (start l₂ b) := by
  cases l₁ <;> rfl

theorem start_eq_iff (h : b ∉ l.map Prod.fst) : start l b = b ↔ l = [] := by
  cases l with
  | nil => simp
  | cons cell l =>
    refine iff_of_false (fun heq => h ?_) (List.cons_ne_nil cell l)
    exact heq ▸ List.mem_cons_self

/-- The cells are laid out up to an end. -/
def Chain (F : α → Option (β × α)) : List (α × β) → α → Prop
  | [], _ => True
  | cell :: l, b => F cell.1 = some (cell.2, start l b) ∧ Chain F l b

@[simp] theorem chain_nil : Chain F [] b := trivial

theorem chain_cons (cell : α × β) :
    Chain F (cell :: l) b ↔ F cell.1 = some (cell.2, start l b) ∧ Chain F l b := Iff.rfl

theorem chain_append : Chain F (l₁ ++ l₂) b ↔ Chain F l₁ (start l₂ b) ∧ Chain F l₂ b := by
  induction l₁ with
  | nil => simp
  | cons cell l₁ ih =>
    rw [List.cons_append, chain_cons, chain_cons, start_append, ih, and_assoc]

theorem Chain.isSome (h : Chain F l b) {cell : α × β} (hcell : cell ∈ l) : (F cell.1).isSome := by
  induction l with
  | nil => cases hcell
  | cons first l ih =>
    rcases List.mem_cons.mp hcell with rfl | hcell
    · rw [h.1]
      rfl
    · exact ih h.2 hcell

/-- A list is laid out in every memory that agrees on its addresses. -/
theorem Chain.congr (h : Chain F l b) (hagree : ∀ a ∈ l.map Prod.fst, G a = F a) : Chain G l b := by
  induction l with
  | nil => trivial
  | cons cell l ih =>
    refine ⟨(hagree _ List.mem_cons_self).trans h.1, ih h.2 fun a ha => ?_⟩
    exact hagree a (List.mem_cons_of_mem _ ha)

/-- What is known of a memory with one address changed. -/
theorem Chain.update [DecidableEq α] (h : Chain F l b) {a : α} (ha : a ∉ l.map Prod.fst)
    (link : Option (β × α)) : Chain (Function.update F a link) l b :=
  h.congr fun _ ha' => Function.update_of_ne (ne_of_mem_of_not_mem ha' ha) _ _

/-- Another end is linked to by changing the last cell. -/
theorem Chain.relink [DecidableEq α] {last : α × β} (h : Chain F (l ++ [last]) b)
    (hlast : last.1 ∉ l.map Prod.fst) (c : α) :
    Chain (Function.update F last.1 (some (last.2, c))) (l ++ [last]) c := by
  obtain ⟨hl, -⟩ := chain_append.mp h
  refine chain_append.mpr ⟨hl.update hlast _, ?_, trivial⟩
  exact Function.update_self ..

end LinkedList
