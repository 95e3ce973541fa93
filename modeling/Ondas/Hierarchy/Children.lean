import Mathlib.Data.List.Range
import Ondas.Hierarchy.Lookup
import Ondas.Library.Forest

/-!
# Children

The children of every scope are threaded through one table, in which scopes and variables are
numbered together (`childLinks`). It is built by prepending the variables and then the scopes, the
last one first, so the children of a scope are its scopes and then its variables, in the order of
their declarations (`childrenWithin_eq`). With the roots they are a forest (`forest`), so a
traversal visits every declaration once.
-/

namespace Ondas

/-- `Item`: a scope or a variable by its number. -/
inductive Item where
  | scope (index : Nat)
  | var (index : Nat)
  deriving DecidableEq, Repr

namespace Hierarchy

/-- The parent of a scope. -/
def scopeParent (h : Hierarchy) (index : Nat) : Option Nat := h.scopes[index]?.bind ScopeData.parent

/-- The parent of a variable. -/
def varParent (h : Hierarchy) (index : Nat) : Option Nat := h.vars[index]?.bind VariableData.parent

/-- `ChildLinks::new`, where `usize::MAX` is no child. The numbers of the scopes precede those of
the variables. -/
def childLinks (h : Hierarchy) : Library.Threads :=
  let links := Library.Threads.empty h.scopes.length (h.scopes.length + h.vars.length)
  let links := (List.range h.vars.length).foldr
    (fun index links => links.link (h.varParent index) (h.scopes.length + index)) links
  (List.range h.scopes.length).foldr
    (fun index links => links.link (h.scopeParent index) index) links

/-- The declaration of a number. -/
def itemAt (h : Hierarchy) (index : Nat) : Item :=
  if index < h.scopes.length then .scope index else .var (index - h.scopes.length)

/-- `Hierarchy::children_of`, when the iterator ends within so many turns. -/
def childrenWithin (h : Hierarchy) (fuel parent : Nat) : Option (List Item) :=
  (h.childLinks.follow fuel h.childLinks.first[parent]?.join).map (List.map h.itemAt)

/-- `Scope::children`. A variable has none. -/
def children (h : Hierarchy) : Item → List Item
  | .scope index => (h.childrenWithin (h.count + 1) index).getD []
  | .var _ => []

/-- The declarations with a parent, or without one: the scopes and then the variables. -/
def itemsUnder (h : Hierarchy) (parent : Option Nat) : List Item :=
  ((List.range h.scopes.length).filter fun index => h.scopeParent index == parent).map .scope ++
    ((List.range h.vars.length).filter fun index => h.varParent index == parent).map .var

/-- `Hierarchy::roots`. -/
def roots (h : Hierarchy) : List Item := h.itemsUnder none

/-- All the declarations. -/
def items (h : Hierarchy) : List Item :=
  (List.range h.scopes.length).map .scope ++ (List.range h.vars.length).map .var

/-- The parent of a declaration. -/
def parentOf (h : Hierarchy) : Item → Option Item
  | .scope index => (h.scopeParent index).map .scope
  | .var index => (h.varParent index).map .scope

variable {h : Hierarchy}

/-- A scope with a parent is one of the hierarchy, and so is the parent. -/
theorem scopeParent_lt {index parent : Nat} (hparent : h.scopeParent index = some parent) :
    index < h.scopes.length ∧ parent < h.scopes.length := by
  obtain ⟨scope, hscope, hsome⟩ := Option.bind_eq_some_iff.1 hparent
  exact ⟨(List.getElem?_eq_some_iff.1 hscope).1,
    h.scope_parents scope (List.mem_of_getElem? hscope) parent hsome⟩

/-- So it is with a variable. -/
theorem varParent_lt {index parent : Nat} (hparent : h.varParent index = some parent) :
    index < h.vars.length ∧ parent < h.scopes.length := by
  obtain ⟨v, hv, hsome⟩ := Option.bind_eq_some_iff.1 hparent
  exact ⟨(List.getElem?_eq_some_iff.1 hv).1,
    h.variable_parents v (List.mem_of_getElem? hv) parent hsome⟩

/-! ## The table -/

/-- The parent of the declaration of a number. -/
def ownerOf (h : Hierarchy) (index : Nat) : Option Nat :=
  if index < h.scopes.length then h.scopeParent index else h.varParent (index - h.scopes.length)

theorem ownerOf_scope {index : Nat} (hindex : index < h.scopes.length) :
    h.ownerOf index = h.scopeParent index := if_pos hindex

theorem ownerOf_var (index : Nat) : h.ownerOf (h.scopes.length + index) = h.varParent index := by
  rw [ownerOf, if_neg (Nat.not_lt.2 (Nat.le_add_right _ _)), Nat.add_sub_cancel_left]

/-- The owner of an item is a scope of the hierarchy. -/
theorem ownerOf_lt (index : Nat) (parent : Nat) (hparent : h.ownerOf index = some parent) :
    parent < h.scopes.length := by
  unfold ownerOf at hparent
  split at hparent
  · exact (scopeParent_lt hparent).2
  · exact (varParent_lt hparent).2

/-- The numbers of the declarations. -/
def numbers (h : Hierarchy) : List Nat :=
  List.range h.scopes.length ++ (List.range h.vars.length).map (h.scopes.length + ·)

/-- The items behind the scopes are the variables. -/
theorem mem_varNumbers {number : Nat} :
    number ∈ (List.range h.vars.length).map (h.scopes.length + ·) ↔
      h.scopes.length ≤ number ∧ number < h.scopes.length + h.vars.length := by
  rw [List.mem_map]
  constructor
  · rintro ⟨index, hindex, rfl⟩
    have := List.mem_range.1 hindex
    omega
  · rintro ⟨hle, hlt⟩
    exact ⟨number - h.scopes.length, List.mem_range.2 (by omega), by omega⟩

/-- A number is that of one declaration. -/
theorem numbers_nodup (h : Hierarchy) : h.numbers.Nodup := by
  refine List.nodup_range.append (List.nodup_range.map fun _ _ hsum => Nat.add_left_cancel hsum) ?_
  intro number hscope hvar
  exact Nat.not_lt.2 (mem_varNumbers.1 hvar).1 (List.mem_range.1 hscope)

/-- The table lists the numbers of the children of every scope in order. -/
theorem childLinks_holds (h : Hierarchy) :
    h.childLinks.Holds h.scopes.length (h.scopes.length + h.vars.length) h.ownerOf h.numbers := by
  have hnodup := h.numbers_nodup
  have hvars := (Library.Threads.holds_empty h.scopes.length (h.scopes.length + h.vars.length)
    h.ownerOf).foldr (fun number hnumber => (mem_varNumbers.1 hnumber).2)
      (by rw [List.append_nil]; exact hnodup.of_append_right) fun number _ => ownerOf_lt number
  rw [List.append_nil, List.foldr_map] at hvars
  simp only [ownerOf_var] at hvars
  have hscopes := hvars.foldr
    (fun number hnumber => Nat.lt_add_right _ (List.mem_range.1 hnumber)) hnodup
      fun number _ => ownerOf_lt number
  have hfold : ∀ links : Library.Threads, (List.range h.scopes.length).foldr
      (fun index links => links.link (h.ownerOf index) index) links =
      (List.range h.scopes.length).foldr
        (fun index links => links.link (h.scopeParent index) index) links := by
    intro links
    refine List.foldr_ext _ _ _ fun index hindex links => ?_
    rw [ownerOf_scope (List.mem_range.1 hindex)]
  rw [hfold] at hscopes
  exact hscopes

/-- The numbers of the children of a scope are those of its scopes, and then of its variables. -/
theorem map_itemAt_numbers (h : Hierarchy) (parent : Nat) :
    (h.numbers.filter (h.ownerOf · == some parent)).map h.itemAt = h.itemsUnder (some parent) := by
  rw [numbers, List.filter_append, List.map_append, itemsUnder]
  congr 1
  · have hfilter : (List.range h.scopes.length).filter (h.ownerOf · == some parent) =
        (List.range h.scopes.length).filter (h.scopeParent · == some parent) := by
      refine List.filter_congr fun index hindex => ?_
      rw [ownerOf_scope (List.mem_range.1 hindex)]
    rw [hfilter]
    refine List.map_congr_left fun index hindex => ?_
    rw [itemAt, if_pos (List.mem_range.1 (List.mem_filter.1 hindex).1)]
  · rw [List.filter_map, List.map_map]
    have howner : (fun number => h.ownerOf number == some parent) ∘ (h.scopes.length + ·) =
        fun index => h.varParent index == some parent := by
      funext index
      exact congrArg (· == some parent) (ownerOf_var index)
    have hitem : h.itemAt ∘ (h.scopes.length + ·) = Item.var := by
      funext index
      show (if h.scopes.length + index < h.scopes.length then Item.scope (h.scopes.length + index)
        else Item.var (h.scopes.length + index - h.scopes.length)) = Item.var index
      rw [if_neg (Nat.not_lt.2 (Nat.le_add_right _ _)), Nat.add_sub_cancel_left]
    rw [howner, hitem]

/-- The iterator over the children of a scope ends, and lists its scopes and then its variables. -/
theorem childrenWithin_eq {parent fuel : Nat} (hparent : parent < h.scopes.length)
    (hfuel : h.count < fuel) :
    h.childrenWithin fuel parent = some (h.itemsUnder (some parent)) := by
  have hlength : (h.numbers.filter (h.ownerOf · == some parent)).length ≤ h.count := by
    refine (List.length_filter_le _ _).trans (Nat.le_of_eq ?_)
    rw [numbers, List.length_append, List.length_map, List.length_range, List.length_range, count]
  rw [childrenWithin, (h.childLinks_holds.chain parent hparent).follow (hlength.trans_lt hfuel),
    Option.map_some, map_itemAt_numbers]

/-! ## The forest -/

/-- The items under a parent are those that have it. -/
theorem mem_itemsUnder {parent : Option Nat} {item : Item} :
    item ∈ h.itemsUnder parent ↔ item ∈ h.items ∧ h.parentOf item = parent.map .scope := by
  have hinj : ∀ p : Option Nat, p.map Item.scope = parent.map Item.scope ↔ p = parent :=
    fun p => (Option.map_injective fun _ _ hscope => Item.scope.inj hscope).eq_iff
  rw [itemsUnder, items, List.mem_append, List.mem_append]
  cases item with
  | scope index => simp [parentOf, hinj]
  | var index => simp [parentOf, hinj]

/-- No item is listed twice under a parent. -/
theorem itemsUnder_nodup (parent : Option Nat) : (h.itemsUnder parent).Nodup := by
  refine ((List.nodup_range.filter _).map fun _ _ hscope => Item.scope.inj hscope).append
    ((List.nodup_range.filter _).map fun _ _ hvar => Item.var.inj hvar) fun item hscope hvar => ?_
  obtain ⟨i, -, rfl⟩ := List.mem_map.1 hscope
  obtain ⟨j, -, hj⟩ := List.mem_map.1 hvar
  cases hj

/-- No item is listed twice. -/
theorem items_nodup (h : Hierarchy) : h.items.Nodup := by
  refine (List.nodup_range.map fun _ _ hscope => Item.scope.inj hscope).append
    (List.nodup_range.map fun _ _ hvar => Item.var.inj hvar) fun item hscope hvar => ?_
  obtain ⟨i, -, rfl⟩ := List.mem_map.1 hscope
  obtain ⟨j, -, hj⟩ := List.mem_map.1 hvar
  cases hj

/-- The children of a scope are the declarations under it. No other number is a parent. -/
theorem children_scope (index : Nat) : h.children (.scope index) = h.itemsUnder (some index) := by
  show (h.childrenWithin (h.count + 1) index).getD [] = _
  by_cases hindex : index < h.scopes.length
  · rw [childrenWithin_eq hindex (Nat.lt_succ_self _)]
    rfl
  · have hfirst : h.childLinks.first[index]? = none := by
      rw [List.getElem?_eq_none_iff, h.childLinks_holds.first_length]
      exact Nat.le_of_not_lt hindex
    have hnone : h.itemsUnder (some index) = [] := by
      refine List.eq_nil_iff_forall_not_mem.2 fun item hitem => hindex ?_
      have hparent := (mem_itemsUnder.1 hitem).2
      cases item with
      | scope child =>
        obtain ⟨p, hp, hscope⟩ := Option.map_eq_some_iff.1 hparent
        cases hscope
        exact (scopeParent_lt hp).2
      | var child =>
        obtain ⟨p, hp, hscope⟩ := Option.map_eq_some_iff.1 hparent
        cases hscope
        exact (varParent_lt hp).2
    rw [childrenWithin, hfirst, hnone]
    rfl

/-- The declarations are a forest. -/
theorem forest (h : Hierarchy) : Library.Forest h.items h.roots h.children h.parentOf where
  roots_nodup := itemsUnder_nodup none
  mem_roots item := mem_itemsUnder
  children_nodup item := by
    cases item with
    | scope index =>
      rw [children_scope]
      exact itemsUnder_nodup _
    | var index => exact List.nodup_nil
  mem_children item child := by
    cases item with
    | scope index =>
      rw [children_scope]
      exact mem_itemsUnder
    | var index =>
      refine iff_of_false List.not_mem_nil ?_
      rintro ⟨-, hparent⟩
      cases child with
      | scope child | var child =>
        obtain ⟨p, -, hscope⟩ := Option.map_eq_some_iff.1 hparent
        cases hscope
  parent_mem item _ parent hparent := by
    have hscope : ∀ p, p < h.scopes.length → Item.scope p ∈ h.items := fun p hp =>
      List.mem_append_left _ (List.mem_map_of_mem (List.mem_range.2 hp))
    cases item with
    | scope index =>
      obtain ⟨p, hp, rfl⟩ := Option.map_eq_some_iff.1 hparent
      exact hscope p (scopeParent_lt hp).2
    | var index =>
      obtain ⟨p, hp, rfl⟩ := Option.map_eq_some_iff.1 hparent
      exact hscope p (varParent_lt hp).2
  acyclic := by
    have hscope : ∀ index, Acc (fun p item => h.parentOf item = some p) (Item.scope index) := by
      intro index
      induction index using h.acyclic.induction with
      | _ index ih =>
        refine ⟨_, fun parent hparent => ?_⟩
        obtain ⟨p, hp, rfl⟩ := Option.map_eq_some_iff.1 hparent
        obtain ⟨scope, hscope, hsome⟩ := Option.bind_eq_some_iff.1 hp
        exact ih p ⟨scope, hscope, hsome⟩
    refine ⟨fun item => ?_⟩
    cases item with
    | scope index => exact hscope index
    | var index =>
      refine ⟨_, fun parent hparent => ?_⟩
      obtain ⟨p, -, rfl⟩ := Option.map_eq_some_iff.1 hparent
      exact hscope p

/-- **Traversals visit everything once.** The iterator over the children of a scope ends, with its
scopes and then its variables, each in the order of the declarations. Every traversal from the roots
that expands what is pending, in any order, visits no declaration twice and has at most one step for
each; it goes on while something is pending, and then it has visited all of them. -/
theorem visits_once (h : Hierarchy) :
    (∀ parent < h.scopes.length, ∀ fuel, h.count < fuel → h.childrenWithin fuel parent =
      some (((List.range h.scopes.length).filter (h.scopeParent · == some parent)).map .scope ++
        ((List.range h.vars.length).filter (h.varParent · == some parent)).map .var)) ∧
    ∀ n pending visited, Library.Visits h.children n (h.roots, []) (pending, visited) →
      visited.Nodup ∧ n ≤ h.count ∧
        (pending ≠ [] → ∃ state, Library.Visit h.children (pending, visited) state) ∧
        (pending = [] → visited.Perm h.items) := by
  refine ⟨fun parent hparent fuel hfuel => childrenWithin_eq hparent hfuel,
    fun n pending visited hvisits => ?_⟩
  obtain ⟨hreached, -⟩ := h.forest.visits hvisits
  obtain ⟨hle, hnext⟩ := h.forest.bounded hvisits
  refine ⟨hreached.nodup.of_append_left, hle.trans (Nat.le_of_eq ?_), hnext, ?_⟩
  · rw [items, List.length_append, List.length_map, List.length_map, List.length_range,
      List.length_range, count]
  · rintro rfl
    exact hreached.perm h.forest h.items_nodup

end Hierarchy

end Ondas
