import Mathlib.Algebra.Order.Ring.Int
import Mathlib.Data.List.Basic

/-!
# Vectors with a capacity

A vector has items and a capacity that is reserved for them, of which the items are a part. A
reservation asks an allocator, which fails or gives what was asked for and maybe more
(`Vec.reserve`). Items that are appended go into the capacity (`Vec.append`); the accounts of an
owner that adds up capacities are then right as long as no append needs more than was reserved.

A computation that may end with a fault is an `Except`. `Settles` says what holds of its result and
which faults it may end with.
-/

namespace Ondas.Library

/-! ## Results -/

section
variable {ε α β : Type} {Q Q' : α → Prop} {R : β → Prop} {E E' : ε → Prop} {r : Except ε α}
  {f : α → Except ε β}

/-- The result has a property, or the fault has one. -/
def Settles (Q : α → Prop) (E : ε → Prop) : Except ε α → Prop
  | .ok a => Q a
  | .error e => E e

/-- What a computation settles may be weakened. -/
theorem Settles.mono (h : Settles Q E r) (hQ : ∀ a, Q a → Q' a) (hE : ∀ e, E e → E' e) :
    Settles Q' E' r := by
  cases r with
  | ok a => exact hQ a h
  | error e => exact hE e h

theorem Settles.imp (h : Settles Q E r) (hQ : ∀ a, Q a → Q' a) : Settles Q' E r :=
  h.mono hQ fun _ he => he

/-- A composition that succeeds has succeeded in both parts. -/
theorem exists_of_bind {f : α → Except ε β} {b : β} (h : (r >>= f) = .ok b) :
    ∃ a, r = .ok a ∧ f a = .ok b := by
  cases r with
  | ok a => exact ⟨a, rfl, h⟩
  | error e => cases h

/-- A computation that settles and then another one settle together. -/
theorem Settles.bind (h : Settles Q E r) (hf : ∀ a, Q a → Settles R E (f a)) :
    Settles R E (r >>= f) := by
  cases r with
  | ok a => exact hf a h
  | error e => exact h

/-- A choice settles when both branches do under their conditions. -/
theorem Settles.ite {p : Prop} [Decidable p] {r' : Except ε α} (h : p → Settles Q E r)
    (h' : ¬ p → Settles Q E r') : Settles Q E (if p then r else r') := by
  split
  · next hp => exact h hp
  · next hp => exact h' hp

/-- A computation that may not fault gives a result. -/
theorem Settles.exists_ok (h : Settles Q (fun _ => False) r) : ∃ a, r = .ok a ∧ Q a := by
  cases r with
  | ok a => exact ⟨a, rfl, h⟩
  | error e => exact h.elim

end

/-! ## Vectors -/

/-- What an allocator answers to the reservations to come: that it fails, or how much more than was
asked for it gives. -/
def Allocator := Nat → Option Nat

/-- The allocator after some answers. -/
def Allocator.after (answers : Allocator) (n : Nat) : Allocator := fun i => answers (i + n)

/-- A vector with the capacity that is reserved for its items. -/
structure Vec (α : Type) where
  items : List α
  capacity : Nat
  fits : items.length ≤ capacity

namespace Vec

variable {α : Type} {v : Vec α} {more : List α} {answer : Option Nat} {additional : Nat}

/-- A vector without a capacity. -/
def empty : Vec α := ⟨[], 0, Nat.le_refl 0⟩

/-- Reserve for additional items. Nothing happens when the capacity is sufficient. -/
def reserve (v : Vec α) (additional : Nat) (answer : Option Nat) : Option (Vec α) :=
  if v.items.length + additional ≤ v.capacity then some v
  else answer.map fun extra =>
    ⟨v.items, v.items.length + additional +
      extra, by rw [Nat.add_assoc]; exact Nat.le_add_right _ _⟩

/-- The vector with more items, when the capacity has room for them. -/
def append (v : Vec α) (more : List α) : Option (Vec α) :=
  if h : v.items.length + more.length ≤ v.capacity then
    some ⟨v.items ++ more, v.capacity, by rwa [List.length_append]⟩
  else none

/-- The vector with another item at an index. -/
def set (v : Vec α) (i : Nat) (item : α) : Vec α :=
  ⟨v.items.set i item, v.capacity, by rw [List.length_set]; exact v.fits⟩

@[simp] theorem set_items (v : Vec α) (i : Nat) (item : α) :
    (v.set i item).items = v.items.set i item :=
  rfl

/-- An item that is set. -/
theorem set_same {i : Nat} {item' : α} (h : v.items[i]? = some item') (item : α) :
    (v.set i item).items[i]? = some item :=
  List.getElem?_set_self (List.getElem?_eq_some_iff.1 h).1

/-- The other items stay. -/
theorem set_other {i j : Nat} (h : j ≠ i) (item : α) : (v.set i item).items[j]? = v.items[j]? :=
  List.getElem?_set_ne (Ne.symm h)

@[simp] theorem set_capacity (v : Vec α) (i : Nat) (item : α) :
    (v.set i item).capacity = v.capacity :=
  rfl

/-- A reservation keeps the items, loses no capacity and makes room. -/
theorem reserve_eq_some {v' : Vec α} (h : v.reserve additional answer = some v') :
    v'.items = v.items ∧ v.capacity ≤ v'.capacity ∧ v.items.length + additional ≤ v'.capacity := by
  unfold reserve at h
  split at h
  · next hroom =>
    cases h
    exact ⟨rfl, Nat.le_refl _, hroom⟩
  · next hroom =>
    obtain ⟨extra, -, rfl⟩ := Option.map_eq_some_iff.1 h
    have hmore : v.items.length + additional ≤ v.items.length + additional + extra :=
      Nat.le_add_right _ _
    exact ⟨rfl, Nat.le_trans (Nat.le_of_lt (Nat.lt_of_not_le hroom)) hmore, hmore⟩

/-- A vector with room takes the items. -/
theorem append_eq_some (h : v.items.length + more.length ≤ v.capacity) :
    ∃ v', v.append more = some v' ∧ v'.items = v.items ++ more ∧ v'.capacity = v.capacity :=
  ⟨_, dif_pos h, rfl, rfl⟩

/-- A sum over items, one of which is set. -/
theorem sum_map_set (f : α → Nat) {items : List α} {item' : α} : ∀ {i : Nat},
    items[i]? = some item' → ∀ item,
      ((items.set i item).map f).sum + f item' = (items.map f).sum + f item := by
  induction items with
  | nil => exact fun h => nomatch h
  | cons a items ih =>
    intro i h item
    cases i with
    | zero =>
      cases h
      rw [List.set_cons_zero, List.map_cons, List.map_cons, List.sum_cons, List.sum_cons]
      omega
    | succ i =>
      have hrest := ih (i := i) h item
      rw [List.set_cons_succ, List.map_cons, List.map_cons, List.sum_cons, List.sum_cons]
      omega

end Vec

end Ondas.Library
