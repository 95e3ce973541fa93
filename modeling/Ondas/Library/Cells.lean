import Mathlib.Algebra.Order.Ring.Int
import Mathlib.Data.List.Basic
import Mathlib.Data.List.Induction
import Mathlib.Data.List.Nodup

/-!
# Lists of cells

Two ways a program fills a list. A table is appended to, and each entry is computed from the entries
before it (`table`). A list of cells is updated in place, at the positions of a work list
(`modifyAll`): when the update leaves the other cells alone and doing it twice changes nothing, that
is a map over all the cells, and when no position repeats each listed cell is updated once.
-/

namespace Ondas.Library

variable {α ν : Type*}

/-! ## Straight-line tables -/

section
variable (node : List α → ν → α)

/-- Each node's entry, computed from the entries of the nodes before it. -/
def table (nodes : List ν) : List α :=
  nodes.foldl (fun entries n => entries ++ [node entries n]) []

@[simp] theorem table_nil : table node [] = [] := rfl

@[simp] theorem table_concat (nodes : List ν) (n : ν) :
    table node (nodes ++ [n]) = table node nodes ++ [node (table node nodes) n] := by
  simp [table, List.foldl_append]

/-- There is an entry for each node. -/
@[simp] theorem table_length (nodes : List ν) : (table node nodes).length = nodes.length := by
  induction nodes using List.reverseRecOn with
  | nil => rfl
  | append_singleton nodes n ih => simp [ih]

/-- An entry, from the entries before it. -/
theorem table_getElem? (nodes : List ν) (i : Nat) :
    (table node nodes)[i]? = nodes[i]?.map (node ((table node nodes).take i)) := by
  induction nodes using List.reverseRecOn with
  | nil => simp
  | append_singleton nodes n ih =>
    rw [table_concat]
    rcases Nat.lt_trichotomy i nodes.length with hlt | rfl | hgt
    · rw [List.getElem?_append_left (by simpa using hlt), List.getElem?_append_left hlt, ih,
        List.take_append_of_le_length (by simpa using Nat.le_of_lt hlt)]
    · have hlen : nodes.length = (table node nodes).length := (table_length node nodes).symm
      rw [List.getElem?_concat_length, hlen, List.getElem?_concat_length, List.take_left]
      rfl
    · rw [List.getElem?_eq_none (by simp; omega), List.getElem?_eq_none (by simp; omega)]
      rfl

end

/-- An entry stays where it is when the list grows. -/
theorem getElem?_append_of_some {l more : List α} {i : Nat} {a : α} (h : l[i]? = some a) :
    (l ++ more)[i]? = some a := by
  obtain ⟨hlt, -⟩ := List.getElem?_eq_some_iff.1 h
  rw [List.getElem?_append_left hlt, h]

/-- An entry of a list with one more is an old one or the last. -/
theorem getElem?_concat_iff {l : List α} {i : Nat} {a b : α} :
    (l ++ [b])[i]? = some a ↔ l[i]? = some a ∨ i = l.length ∧ b = a := by
  rcases Nat.lt_trichotomy i l.length with hlt | rfl | hgt
  · rw [List.getElem?_append_left hlt]
    exact ⟨.inl, fun h => h.elim id fun h => absurd h.1 (Nat.ne_of_lt hlt)⟩
  · rw [List.getElem?_concat_length, List.getElem?_eq_none (Nat.le_refl _), Option.some.injEq]
    simp
  · rw [List.getElem?_eq_none (by simp; omega), List.getElem?_eq_none (by omega)]
    simp [Nat.ne_of_gt hgt]

/-! ## Updates in place -/

/-- Update the cells at some positions, one after the other. -/
def modifyAll (f : α → α) (cells : List α) (positions : List Nat) : List α :=
  positions.foldl (fun cells i => cells.modify i f) cells

@[simp] theorem modifyAll_nil (f : α → α) (cells : List α) : modifyAll f cells [] = cells := rfl

@[simp] theorem modifyAll_cons (f : α → α) (cells : List α) (i : Nat) (positions : List Nat) :
    modifyAll f cells (i :: positions) = modifyAll f (cells.modify i f) positions := rfl

/-- Changing cells keeps their number. -/
@[simp] theorem modifyAll_length (f : α → α) (cells : List α) (positions : List Nat) :
    (modifyAll f cells positions).length = cells.length := by
  induction positions generalizing cells with
  | nil => rfl
  | cons i positions ih => rw [modifyAll_cons, ih, List.length_modify]

/-- Updating the cell behind a prefix. -/
theorem modify_append_length (l rest : List α) (a : α) (f : α → α) :
    (l ++ a :: rest).modify l.length f = l ++ f a :: rest := by
  induction l with
  | nil => rfl
  | cons b l ih => rw [List.cons_append, List.length_cons, List.modify_succ_cons, ih]; rfl

/-- When an update is idempotent and the cells outside the work list do not need it, every cell is
updated. -/
theorem modifyAll_eq_map {f : α → α} (hidem : ∀ a, f (f a) = f a) {cells : List α}
    {positions : List Nat} (hrest : ∀ i a, cells[i]? = some a → i ∉ positions → f a = a) :
    modifyAll f cells positions = cells.map f := by
  induction positions generalizing cells with
  | nil =>
    refine (List.ext_getElem? fun i => ?_)
    rw [List.getElem?_map]
    cases hi : cells[i]? with
    | none => rw [modifyAll_nil, hi]; rfl
    | some a => rw [modifyAll_nil, hi, Option.map_some, hrest i a hi (by simp)]
  | cons j positions ih =>
    rw [modifyAll_cons, ih]
    · refine List.ext_getElem? fun i => ?_
      rw [List.getElem?_map, List.getElem?_map, List.getElem?_modify]
      cases cells[i]? with
      | none => rfl
      | some a => by_cases hij : j = i <;> simp [hij, hidem]
    · intro i a hi hmem
      rw [List.getElem?_modify] at hi
      cases hc : cells[i]? with
      | none => rw [hc] at hi; cases hi
      | some b =>
        rw [hc, Option.map_eq_map, Option.map_some, Option.some.injEq] at hi
        by_cases hij : j = i
        · rw [if_pos hij] at hi
          rw [← hi, hidem]
        · rw [if_neg hij] at hi
          rw [← hi]
          exact hrest i b hc (by simp [Ne.symm hij, hmem])

/-- Updates that name their cells act on each cell by itself: a cell folds the updates that name it,
in their order. -/
theorem foldl_modify_getElem? {ρ : Type*} (step : α → ρ → α) (updates : List (Nat × ρ))
    (cells : List α) (i : Nat) :
    (updates.foldl (fun cells u => cells.modify u.1 (step · u.2)) cells)[i]? =
      cells[i]?.map fun a =>
        (updates.filterMap fun u => if u.1 = i then some u.2 else none).foldl step a := by
  induction updates generalizing cells with
  | nil => simp
  | cons u updates ih =>
    rw [List.foldl_cons, ih, List.getElem?_modify, List.filterMap_cons]
    cases cells[i]? with
    | none => rfl
    | some a => by_cases hu : u.1 = i <;> simp [hu]

/-- When no position repeats, the listed cells are updated once and the others are not. -/
theorem modifyAll_getElem? {f : α → α} {cells : List α} {positions : List Nat}
    (hnodup : positions.Nodup) (i : Nat) :
    (modifyAll f cells positions)[i]? = cells[i]?.map fun a =>
      if i ∈ positions then f a else a := by
  induction positions generalizing cells with
  | nil => simp
  | cons j positions ih =>
    obtain ⟨hj, hnodup⟩ := List.nodup_cons.1 hnodup
    rw [modifyAll_cons, ih hnodup, List.getElem?_modify]
    cases cells[i]? with
    | none => rfl
    | some a =>
      by_cases hij : j = i
      · subst hij; simp [hj]
      · simp [hij, Ne.symm hij]

end Ondas.Library
