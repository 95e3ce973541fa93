import Mathlib.Algebra.Order.Ring.Int
import Mathlib.Data.List.Perm.Subperm

/-!
# Runs and differences

A list that does not descend is its first number and the differences from one number to the next,
and a list of numbers is stored as runs of equal ones (`expand`). Both are undone from the front,
which a reader does one number at a time (`expand_cons`), and are continued at the back, which a
writer does (`differences_append`).
-/

namespace Ondas.Library

/-- The numbers of runs, each a number and how often it is repeated. -/
def expand (runs : List (Nat × Nat)) : List Nat :=
  runs.flatMap fun run => List.replicate run.2 run.1

/-- The differences from a number through a list. -/
def differences (last : Nat) : List Nat → List Nat
  | [] => []
  | n :: rest => (n - last) :: differences n rest

section
variable {runs : List (Nat × Nat)} {last n : Nat} {numbers : List Nat}

theorem expand_append (runs more : List (Nat × Nat)) :
    expand (runs ++ more) = expand runs ++ expand more :=
  List.flatMap_append

theorem expand_singleton (n count : Nat) : expand [(n, count)] = List.replicate count n := by
  rw [expand, List.flatMap_singleton]

/-- A run that is not empty gives its number first. -/
theorem expand_cons (n count : Nat) (runs : List (Nat × Nat)) :
    expand ((n, count + 1) :: runs) = n :: (List.replicate count n ++ expand runs) := rfl

/-- A number of a run is one of the numbers. -/
theorem mem_expand {run : Nat × Nat} (h : run ∈ runs) (hpos : 0 < run.2) : run.1 ∈ expand runs :=
  List.mem_flatMap.2 ⟨run, h, List.mem_replicate.2 ⟨Nat.ne_of_gt hpos, rfl⟩⟩

/-- A run is no longer than the numbers. -/
theorem run_le_length {run : Nat × Nat} (h : run ∈ runs) : run.2 ≤ (expand runs).length := by
  obtain ⟨before, after, rfl⟩ := List.append_of_mem h
  have hrun : expand (run :: after) = List.replicate run.2 run.1 ++ expand after := rfl
  rw [expand_append, hrun, List.length_append, List.length_append, List.length_replicate]
  exact Nat.le_trans (Nat.le_add_right _ _) (Nat.le_add_left _ _)

/-- There are as many differences as numbers. -/
@[simp] theorem length_differences (numbers : List Nat) : ∀ last,
    (differences last numbers).length = numbers.length := by
  induction numbers with
  | nil => exact fun _ => rfl
  | cons n numbers ih => exact fun _ => congrArg Nat.succ (ih n)

/-- One more number. -/
theorem differences_append (n : Nat) (numbers : List Nat) : ∀ last,
    differences last (numbers ++ [n]) =
      differences last numbers ++ [n - (numbers.getLast?.getD last)] := by
  induction numbers with
  | nil => exact fun _ => rfl
  | cons m numbers ih =>
    intro last
    rw [List.cons_append, differences, ih, differences, List.cons_append]
    cases numbers <;> rfl

/-- A difference is no more than a number of the list. -/
theorem exists_le_of_mem_differences (numbers : List Nat) : ∀ {last d : Nat},
    d ∈ differences last numbers → ∃ n ∈ numbers, d ≤ n := by
  induction numbers with
  | nil => exact fun h => nomatch h
  | cons n numbers ih =>
    intro last d h
    rcases List.mem_cons.1 h with rfl | h
    · exact ⟨n, .head _, Nat.sub_le _ _⟩
    · obtain ⟨m, hm, hle⟩ := ih h
      exact ⟨m, .tail _ hm, hle⟩

/-- Numbers that ascend below a bound are no more than it. -/
theorem length_le_of_ascending {bound : Nat} (hascend : numbers.Pairwise (· < ·))
    (hbound : ∀ n ∈ numbers, n < bound) : numbers.length ≤ bound := by
  have hnodup : numbers.Nodup := hascend.imp Nat.ne_of_lt
  have hsub : numbers ⊆ List.range bound := fun n hn => List.mem_range.2 (hbound n hn)
  rw [← List.length_range (n := bound)]
  exact (List.Nodup.subperm hnodup hsub).length_le

end

end Ondas.Library
