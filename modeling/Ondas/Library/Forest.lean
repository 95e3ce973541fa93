import Mathlib.Algebra.Order.Ring.Int
import Mathlib.Data.List.Nodup
import Mathlib.Data.List.Perm.Basic

/-!
# Forests

The children of every node of a forest can be kept in two tables: the first child of each node, and
for each node its next sibling (`Threads`). A table that is built by prepending the nodes, the last
one first, lists the children of each node in order (`Holds.foldr`). Following the siblings ends.

A traversal takes any node that is pending, and makes its children pending (`Visit`). In a forest,
every traversal that starts at the roots has visited some nodes once (`Reached.visit`), and when it
ends, all of them (`Reached.perm`), whatever the order in which it takes them.
-/

namespace Ondas.Library

/-! ## Threaded lists -/

/-- Lists of items with one owner each, threaded through two tables: the first item of an owner, and
the item after an item. -/
structure Threads where
  first : List (Option Nat)
  next : List (Option Nat)

namespace Threads

/-- No owner has items. -/
def empty (owners items : Nat) : Threads := ⟨List.replicate owners none, List.replicate items none⟩

/-- An item before those that its owner has, if it has an owner. -/
def link (t : Threads) (owner : Option Nat) (item : Nat) : Threads :=
  match owner with
  | none => t
  | some owner => ⟨t.first.set owner (some item), t.next.set item t.first[owner]?.join⟩

/-- The items from one on, when they end within so many turns. -/
def follow (t : Threads) : Nat → Option Nat → Option (List Nat)
  | 0, _ => none
  | _ + 1, none => some []
  | fuel + 1, some item => (follow t fuel t.next[item]?.join).map (item :: ·)

/-- The items from one on are those of a list. -/
def Chain (t : Threads) : Option Nat → List Nat → Prop
  | start, [] => start = none
  | start, item :: items => start = some item ∧ t.Chain t.next[item]?.join items

variable {t : Threads} {start : Option Nat} {items : List Nat}

/-- Following a list gives it, with enough turns. -/
theorem Chain.follow (h : t.Chain start items) {fuel : Nat} (hfuel : items.length < fuel) :
    t.follow fuel start = some items := by
  induction items generalizing start fuel with
  | nil =>
    obtain ⟨fuel, rfl⟩ : ∃ n, fuel = n + 1 := ⟨fuel - 1, by omega⟩
    rw [show start = none from h]
    rfl
  | cons item items ih =>
    obtain ⟨fuel, rfl⟩ : ∃ n, fuel = n + 1 := ⟨fuel - 1, by omega⟩
    rw [h.1, Threads.follow, ih h.2 (Nat.lt_of_succ_lt_succ hfuel)]
    rfl

/-- A new item leaves the lists that it is not in. -/
theorem Chain.link (h : t.Chain start items) {item : Nat} (hitem : item ∉ items)
    (owner : Option Nat) : (t.link owner item).Chain start items := by
  cases owner with
  | none => exact h
  | some owner =>
    induction items generalizing start with
    | nil => exact h
    | cons c items ih =>
      have hne : item ≠ c := List.ne_of_not_mem_cons hitem
      have hitem : item ∉ items := List.not_mem_of_not_mem_cons hitem
      refine ⟨h.1, ?_⟩
      show Chain _ (t.next.set item _)[c]?.join items
      rw [List.getElem?_set_ne hne]
      exact ih h.2 hitem

/-- The lists of the owners are some items, in order. -/
structure Holds (t : Threads) (owners count : Nat) (owner : Nat → Option Nat) (items : List Nat) :
    Prop where
  first_length : t.first.length = owners
  next_length : t.next.length = count
  chain : ∀ o < owners, t.Chain t.first[o]?.join (items.filter (owner · == some o))

variable {owners count : Nat} {owner : Nat → Option Nat}

/-- Empty lists hold no child. -/
theorem holds_empty (owners count : Nat) (owner : Nat → Option Nat) :
    (empty owners count).Holds owners count owner [] where
  first_length := List.length_replicate
  next_length := List.length_replicate
  chain o ho := by
    show (List.replicate owners none)[o]?.join = none
    rw [List.getElem?_replicate, if_pos ho]
    rfl

/-- A new item comes before the others of its owner. -/
theorem Holds.link (h : t.Holds owners count owner items) {item : Nat} (hcount : item < count)
    (hnew : item ∉ items) (howner : ∀ o, owner item = some o → o < owners) :
    (t.link (owner item) item).Holds owners count owner (item :: items) := by
  have hfilter : ∀ o, item ∉ items.filter (owner · == some o) :=
    fun o hmem => hnew (List.mem_filter.1 hmem).1
  cases hitem : owner item with
  | none =>
    refine ⟨h.first_length, h.next_length, fun o ho => ?_⟩
    rw [List.filter_cons_of_neg (by rw [hitem]; exact Bool.false_ne_true)]
    exact h.chain o ho
  | some p =>
    have hp := howner p hitem
    refine ⟨(List.length_set).trans h.first_length, (List.length_set).trans h.next_length,
      fun o ho => ?_⟩
    show Chain _ (t.first.set p (some item))[o]?.join _
    by_cases heq : p = o
    · subst heq
      rw [List.getElem?_set_self (by rw [h.first_length]; exact hp),
        List.filter_cons_of_pos (by rw [hitem]; exact beq_self_eq_true _)]
      refine ⟨rfl, ?_⟩
      show Chain _ (t.next.set item _)[item]?.join _
      rw [List.getElem?_set_self (by rw [h.next_length]; exact hcount)]
      exact (h.chain p hp).link (hfilter p) (some p)
    · have hother : ¬ (owner item == some o) = true := by
        rw [hitem, beq_iff_eq]
        exact fun hsome => heq (Option.some.inj hsome)
      rw [List.getElem?_set_ne heq, List.filter_cons, if_neg hother]
      exact (h.chain o ho).link (hfilter o) (some p)

/-- Items that are linked from the last one to the first are listed in order. -/
theorem Holds.foldr (h : t.Holds owners count owner items) {more : List Nat}
    (hcount : ∀ item ∈ more, item < count) (hnodup : (more ++ items).Nodup)
    (howner : ∀ item ∈ more, ∀ o, owner item = some o → o < owners) :
    (more.foldr (fun item t => t.link (owner item) item) t).Holds owners count owner
      (more ++ items) := by
  induction more with
  | nil => exact h
  | cons item more ih =>
    rw [List.cons_append, List.nodup_cons] at hnodup
    have hcounts := List.forall_mem_cons.1 hcount
    have howners := List.forall_mem_cons.1 howner
    exact (ih hcounts.2 hnodup.2 howners.2).link hcounts.1 hnodup.1 howners.1

end Threads

/-! ## Traversals -/

section
variable {α : Type} {items roots pending visited : List α} {children : α → List α}
  {parent : α → Option α}

/-- Some items, with a parent or none, and their children. -/
structure Forest (items roots : List α) (children : α → List α) (parent : α → Option α) :
    Prop where
  roots_nodup : roots.Nodup
  mem_roots : ∀ x, x ∈ roots ↔ x ∈ items ∧ parent x = none
  children_nodup : ∀ x, (children x).Nodup
  mem_children : ∀ x y, y ∈ children x ↔ y ∈ items ∧ parent y = some x
  parent_mem : ∀ x ∈ items, ∀ p, parent x = some p → p ∈ items
  acyclic : WellFounded fun p x => parent x = some p

/-- A step of a traversal: any pending item is visited, and its children become pending. -/
inductive Visit (children : α → List α) : List α × List α → List α × List α → Prop
  | mk {pending rest pending' visited : List α} {item : α} : pending.Perm (item :: rest) →
      pending'.Perm (rest ++ children item) →
      Visit children (pending, visited) (pending', visited ++ [item])

/-- What a traversal has reached: the roots and the children of what it visited, once. -/
structure Reached (items : List α) (parent : α → Option α) (pending visited : List α) : Prop where
  nodup : (visited ++ pending).Nodup
  mem : ∀ x, x ∈ visited ++ pending ↔
    x ∈ items ∧ (parent x = none ∨ ∃ p ∈ visited, parent x = some p)

/-- The roots are waiting, and nothing has been visited. -/
theorem Forest.reached (h : Forest items roots children parent) :
    Reached items parent roots [] where
  nodup := h.roots_nodup
  mem x := by
    rw [List.nil_append, h.mem_roots]
    refine and_congr_right fun _ => (or_iff_left ?_).symm
    rintro ⟨p, hp, -⟩
    exact List.not_mem_nil hp

/-- A step reaches the children of what it visits, which were not reached before. -/
theorem Reached.visit (hreached : Reached items parent pending visited)
    (h : Forest items roots children parent) {state : List α × List α}
    (hvisit : Visit children (pending, visited) state) : Reached items parent state.1 state.2 := by
  obtain ⟨hperm, hperm'⟩ := hvisit
  next rest pending' item =>
  have hitem : item ∈ pending := hperm.mem_iff.2 List.mem_cons_self
  have hunvisited : item ∉ visited := fun hmem =>
    List.disjoint_of_nodup_append hreached.nodup hmem hitem
  have hall : (visited ++ [item] ++ pending').Perm (visited ++ pending ++ children item) := by
    have hsplit : visited ++ [item] ++ (rest ++ children item) =
        visited ++ (item :: rest) ++ children item := by
      simp only [List.append_assoc, List.cons_append, List.nil_append]
    refine (hperm'.append_left _).trans ?_
    rw [hsplit]
    exact (hperm.symm.append_left visited).append_right _
  constructor
  · refine hall.nodup_iff.2 (hreached.nodup.append (h.children_nodup item) fun x hx hchild => ?_)
    obtain ⟨-, hparent⟩ := (h.mem_children item x).1 hchild
    rcases ((hreached.mem x).1 hx).2 with hnone | ⟨p, hp, hsome⟩
    · rw [hparent] at hnone
      cases hnone
    · rw [hparent] at hsome
      cases hsome
      exact hunvisited hp
  · intro x
    rw [hall.mem_iff, List.mem_append, hreached.mem, h.mem_children, ← and_or_left]
    refine and_congr_right fun _ => ?_
    rw [or_assoc]
    refine or_congr_right ⟨?_, ?_⟩
    · rintro (⟨p, hp, hparent⟩ | hparent)
      · exact ⟨p, List.mem_append_left _ hp, hparent⟩
      · exact ⟨item, List.mem_append_right _ (List.mem_singleton_self item), hparent⟩
    · rintro ⟨p, hp, hparent⟩
      rcases List.mem_append.1 hp with hp | hp
      · exact .inl ⟨p, hp, hparent⟩
      · exact .inr (List.mem_singleton.1 hp ▸ hparent)

/-- A traversal of so many steps from the roots. -/
inductive Visits (children : α → List α) : Nat → List α × List α → List α × List α → Prop
  | refl (state : List α × List α) : Visits children 0 state state
  | tail {n : Nat} {state state' state'' : List α × List α} : Visits children n state state' →
      Visit children state' state'' → Visits children (n + 1) state state''

/-- Every traversal has visited as many items as it has steps, each of them once. -/
theorem Forest.visits (h : Forest items roots children parent) {n : Nat} {state : List α × List α}
    (hvisits : Visits children n (roots, []) state) :
    Reached items parent state.1 state.2 ∧ state.2.length = n := by
  generalize hstart : (roots, ([] : List α)) = start at hvisits
  induction hvisits with
  | refl =>
    subst hstart
    exact ⟨h.reached, rfl⟩
  | tail _ hvisit ih =>
    obtain ⟨hreached, hlength⟩ := ih hstart
    refine ⟨hreached.visit h hvisit, ?_⟩
    cases hvisit
    rw [List.length_append, hlength]
    rfl

/-- A traversal that ends has visited all the items. The induction is on the parents. -/
theorem Reached.perm (hreached : Reached items parent [] visited)
    (h : Forest items roots children parent) (hitems : items.Nodup) : visited.Perm items := by
  have hnodup := hreached.nodup
  have hmem := hreached.mem
  simp only [List.append_nil] at hnodup hmem
  refine (List.perm_ext_iff_of_nodup hnodup hitems).2 fun x => ⟨fun hx => ((hmem x).1 hx).1, ?_⟩
  induction x using h.acyclic.induction with
  | _ x ih =>
    intro hx
    refine (hmem x).2 ⟨hx, ?_⟩
    cases hparent : parent x with
    | none => exact .inl rfl
    | some p => exact .inr ⟨p, ih p hparent (h.parent_mem x hx p hparent), rfl⟩

/-- A traversal has no more steps than there are items, and goes on while an item is pending. -/
theorem Forest.bounded (h : Forest items roots children parent) {n : Nat}
    {state : List α × List α} (hvisits : Visits children n (roots, []) state) :
    n ≤ items.length ∧ (state.1 ≠ [] → ∃ state', Visit children state state') := by
  obtain ⟨hreached, hlength⟩ := h.visits hvisits
  constructor
  · have hsub : state.2 ⊆ items := fun x hx =>
      ((hreached.mem x).1 (List.mem_append_left _ hx)).1
    rw [← hlength]
    exact (List.subperm_of_subset hreached.nodup.of_append_left hsub).length_le
  · intro hpending
    obtain ⟨pending, visited⟩ := state
    obtain ⟨item, rest, rfl⟩ := List.exists_cons_of_ne_nil hpending
    exact ⟨_, .mk (.refl _) (.refl _)⟩

end

end Ondas.Library
