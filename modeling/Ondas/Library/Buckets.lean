import Mathlib.Algebra.Order.Ring.Int
import Mathlib.Data.List.Basic
import Mathlib.Data.List.Induction
import Mathlib.Order.Basic

/-!
# Buckets

A counting sort groups items by a small key, and a binary search finds the items of one name in a
sorted group. `offsets` counts the items of each key and adds the counts up, `place` puts the items
at their places, `sortBuckets` sorts each bucket by a second key, and `named` cuts the items of one
name out of a bucket. `named_bucket` says that this finds exactly the items of a key and a name.
-/

namespace Ondas.Library

variable {α κ : Type*}

/-! ## Binary search -/

/-- The loop of `partitionPoint`: the first element that fails the test lies in `[lo, hi]`. -/
def partitionSearch (p : α → Bool) (xs : List α) (lo hi : Nat) : Nat :=
  if lo < hi then
    match xs[(lo + hi) / 2]? with
    | none => lo
    | some x => if p x then partitionSearch p xs ((lo + hi) / 2 + 1) hi
      else partitionSearch p xs lo ((lo + hi) / 2)
  else lo
termination_by hi - lo

/-- The number of leading elements that pass a test, when those that pass come first. -/
def partitionPoint (p : α → Bool) (xs : List α) : Nat := partitionSearch p xs 0 xs.length

section
variable {p : α → Bool} {xs ys : List α}

/-- The binary search ends at the border between what satisfies the predicate and what does not. -/
theorem partitionSearch_append (hxs : ∀ x ∈ xs, p x = true) (hys : ∀ y ∈ ys, p y = false)
    {lo hi : Nat} (hlo : lo ≤ xs.length) (hmid : xs.length ≤ hi) (hhi : hi ≤ (xs ++ ys).length) :
    partitionSearch p (xs ++ ys) lo hi = xs.length := by
  induction hsize : hi - lo using Nat.strongRecOn generalizing lo hi with
  | _ n ih =>
  subst hsize
  unfold partitionSearch
  split
  next hlt =>
    have hin : (lo + hi) / 2 < (xs ++ ys).length := by omega
    rw [List.getElem?_eq_getElem hin]
    dsimp only
    rcases Nat.lt_or_ge ((lo + hi) / 2) xs.length with hleft | hright
    · have hp : p (xs ++ ys)[(lo + hi) / 2] = true := by
        rw [List.getElem_append_left hleft]
        exact hxs _ (List.getElem_mem _)
      rw [if_pos hp]
      exact ih _ (by omega) (by omega) hmid hhi rfl
    · have hp : p (xs ++ ys)[(lo + hi) / 2] = false := by
        rw [List.getElem_append_right hright]
        exact hys _ (List.getElem_mem _)
      rw [if_neg (by simp [hp])]
      exact ih _ (by omega) hlo hright (by omega) rfl
  next hge => omega

/-- Binary search finds where the elements that pass end. -/
theorem partitionPoint_append (hxs : ∀ x ∈ xs, p x = true) (hys : ∀ y ∈ ys, p y = false) :
    partitionPoint p (xs ++ ys) = xs.length :=
  partitionSearch_append hxs hys (Nat.zero_le _) (by simp) (Nat.le_refl _)

end

/-! ## Sorted lists -/

/-- A sorting routine: it orders its input by a key, and equal keys in any order. -/
structure Sorting (α κ : Type*) [LE κ] where
  run : (α → κ) → List α → List α
  perm : ∀ key xs, (run key xs).Perm xs
  sorted : ∀ key xs, (run key xs).Pairwise fun a b => key a ≤ key b

/-- A stable sort is one. -/
def Sorting.stable [LinearOrder κ] : Sorting α κ where
  run key xs := xs.mergeSort fun a b => decide (key a ≤ key b)
  perm _ xs := xs.mergeSort_perm _
  sorted key xs := by
    have htrans : ∀ a b c : α, decide (key a ≤ key b) = true → decide (key b ≤ key c) = true →
        decide (key a ≤ key c) = true := fun a b c hab hbc =>
      decide_eq_true ((of_decide_eq_true hab).trans (of_decide_eq_true hbc))
    have htotal : ∀ a b : α, (decide (key a ≤ key b) || decide (key b ≤ key a)) = true :=
      fun a b => by simpa using le_total (key a) (key b)
    exact (List.pairwise_mergeSort htrans htotal xs).imp of_decide_eq_true

/-- The elements of a sorted list with one name, found by two binary searches. -/
def named [LinearOrder κ] (key : α → κ) (xs : List α) (name : κ) : List α :=
  let start := partitionPoint (fun x => key x < name) xs
  let count := partitionPoint (fun x => key x = name) (xs.drop start)
  (xs.drop start).take count

section
variable [LinearOrder κ] {key : α → κ}

/-- A sorted list is made of the elements before a name, those with the name and those after. -/
theorem sorted_split {xs : List α} (h : xs.Pairwise fun a b => key a ≤ key b) (name : κ) :
    xs = xs.filter (fun x => key x < name) ++
      (xs.filter (fun x => key x = name) ++ xs.filter (fun x => name < key x)) := by
  induction xs with
  | nil => rfl
  | cons x xs ih =>
    obtain ⟨hx, hxs⟩ := List.pairwise_cons.1 h
    have ih := ih hxs
    rcases lt_trichotomy (key x) name with hlt | heq | hgt
    · simp only [List.filter_cons, hlt, hlt.ne, hlt.asymm, decide_true, decide_false, if_true,
        Bool.false_eq_true, if_false, List.cons_append, List.cons.injEq, true_and]
      exact ih
    · have hnone : xs.filter (fun y => key y < name) = [] :=
        List.filter_eq_nil_iff.2 fun y hy => by simpa [heq] using hx y hy
      rw [hnone, List.nil_append] at ih
      simp only [List.filter_cons, heq, lt_self_iff_false, decide_true, decide_false, if_true,
        Bool.false_eq_true, if_false, hnone, List.nil_append, List.cons_append, List.cons.injEq,
        true_and]
      exact ih
    · have hnone : xs.filter (fun y => key y < name) = [] :=
        List.filter_eq_nil_iff.2 fun y hy => by simpa using (hgt.trans_le (hx y hy)).le
      have hnone' : xs.filter (fun y => key y = name) = [] :=
        List.filter_eq_nil_iff.2 fun y hy => by simpa using (hgt.trans_le (hx y hy)).ne'
      rw [hnone, hnone', List.nil_append, List.nil_append] at ih
      simp only [List.filter_cons, hgt, hgt.ne', hgt.asymm, decide_true, decide_false, if_true,
        Bool.false_eq_true, if_false, hnone, hnone', List.nil_append, List.cons.injEq, true_and]
      exact ih

/-- The searches find the elements with the name. -/
theorem named_eq_filter {xs : List α} (h : xs.Pairwise fun a b => key a ≤ key b) (name : κ) :
    named key xs name = xs.filter fun x => key x = name := by
  have hsplit := sorted_split h name
  have hstart : partitionPoint (fun x => decide (key x < name)) xs =
      (xs.filter fun x => key x < name).length := by
    conv => enter [1, 2]; rw [hsplit]
    refine partitionPoint_append (fun x hx => (List.mem_filter.1 hx).2) fun x hx => ?_
    rcases List.mem_append.1 hx with hx | hx
    · have := of_decide_eq_true (List.mem_filter.1 hx).2
      simp [this]
    · have := of_decide_eq_true (List.mem_filter.1 hx).2
      simp [this.le]
  have hdrop : xs.drop (xs.filter fun x => key x < name).length =
      xs.filter (fun x => key x = name) ++ xs.filter (fun x => name < key x) := by
    conv => enter [1, 2]; rw [hsplit]
    exact List.drop_left
  have hcount : partitionPoint (fun x => decide (key x = name))
      (xs.filter (fun x => key x = name) ++ xs.filter (fun x => name < key x)) =
        (xs.filter fun x => key x = name).length := by
    refine partitionPoint_append (fun x hx => (List.mem_filter.1 hx).2) fun x hx => ?_
    have := of_decide_eq_true (List.mem_filter.1 hx).2
    simp [this.ne']
  unfold named
  dsimp only
  rw [hstart, hdrop, hcount]
  exact List.take_left

end

/-! ## Counting -/

section
variable (key : α → Nat) (n : Nat) (items : List α)

/-- The items of each key, counted one place up. -/
def counts : List Nat :=
  items.foldl (fun offsets item => offsets.modify (key item + 1) (· + 1)) (List.replicate (n + 1) 0)

/-- Adding each entry to the next one. -/
def accumulate (xs : List Nat) : List Nat :=
  (List.range' 1 (xs.length - 1)).foldl
    (fun offsets i => offsets.set i (offsets.getD i 0 + offsets.getD (i - 1) 0)) xs

/-- Where the bucket of each key starts. -/
def offsets : List Nat := accumulate (counts key n items)

/-- Each item at the next free place of its bucket. -/
def place (blank : α) : List α :=
  (items.foldl (fun (state : List α × List Nat) item =>
    (state.1.set (state.2.getD (key item) 0) item, state.2.modify (key item) (· + 1)))
    (List.replicate items.length blank, (offsets key n items).take n)).1

/-- The bucket of a key. -/
def bucket (placed : List α) (offsets : List Nat) (k : Nat) : List α :=
  (placed.take (offsets.getD (k + 1) 0)).drop (offsets.getD k 0)

/-- Each bucket, sorted in place. -/
def sortBuckets (sort : List α → List α) (placed : List α) (offsets : List Nat) : List α :=
  (List.range n).foldl (fun placed k =>
    placed.take (offsets.getD k 0) ++ (sort (bucket placed offsets k) ++
      placed.drop (offsets.getD (k + 1) 0))) placed

/-- The items of a key. -/
def group (k : Nat) : List α := items.filter fun item => key item = k

/-- Where the bucket of a key starts, as a sum. -/
def start (k : Nat) : Nat := ((List.range k).map fun j => (group key items j).length).sum

variable {key n items}

/-- There is a count for each key, and one before them. -/
@[simp] theorem length_counts : (counts key n items).length = n + 1 := by
  unfold counts
  induction items using List.reverseRecOn with
  | nil => simp
  | append_singleton items item ih => simpa [List.foldl_append] using ih

/-- The count behind a key is that of its items. -/
theorem counts_getElem? (k : Nat) (hk : k < n + 1) :
    (counts key n items)[k]? = some (if k = 0 then 0 else (group key items (k - 1)).length) := by
  induction items using List.reverseRecOn with
  | nil => simp [counts, group, hk]
  | append_singleton items item ih =>
    have hstep : counts key n (items ++ [item]) =
        (counts key n items).modify (key item + 1) (· + 1) := by
      simp [counts, List.foldl_append]
    rw [hstep, List.getElem?_modify, ih]
    cases k with
    | zero => simp
    | succ k =>
      by_cases h : key item = k
      · simp [group, List.filter_append, h]
      · simp [group, List.filter_append, h]

/-- An entry of the running sums is the sum up to it. -/
theorem accumulate_getElem? (xs : List Nat) (k : Nat) (hk : k < xs.length) :
    (accumulate xs)[k]? = some ((xs.take (k + 1)).sum) := by
  have hrun : ∀ m, m < xs.length →
      let ys := (List.range' 1 m).foldl
        (fun offsets i => offsets.set i (offsets.getD i 0 + offsets.getD (i - 1) 0)) xs
      ys.length = xs.length ∧
        ∀ j, j < xs.length → ys[j]? =
        some (if j ≤ m then (xs.take (j + 1)).sum else xs.getD j 0) := by
    intro m
    induction m with
    | zero =>
      intro hm
      refine ⟨rfl, fun j hj => ?_⟩
      cases j with
      | zero => simp [List.getElem?_eq_getElem hj, List.take_one, List.head?_eq_getElem?]
      | succ j => simp [List.getElem?_eq_getElem hj]
    | succ m ih =>
      intro hm
      obtain ⟨hlength, hys⟩ := ih (Nat.lt_of_succ_lt hm)
      rw [List.range'_1_concat, List.foldl_append]
      refine ⟨by simpa using hlength, fun j hj => ?_⟩
      simp only [List.foldl_cons, List.foldl_nil]
      rw [List.getElem?_set]
      have hm' : m < xs.length := by omega
      have hnext := hys (1 + m) (by omega)
      have hlast := hys m hm'
      rw [if_neg (by omega)] at hnext
      rw [if_pos (Nat.le_refl _)] at hlast
      split
      next heq =>
        subst heq
        rw [if_pos (by omega), if_pos (by omega)]
        rw [List.getD_eq_getElem?_getD, List.getD_eq_getElem?_getD, hnext,
          show 1 + m - 1 = m by omega, hlast, show 1 + m + 1 = (m + 1) + 1 by omega,
          List.take_add_one (i := m + 1), List.sum_append]
        have hget : xs[m + 1]? = some xs[m + 1] := List.getElem?_eq_getElem hm
        simp [show 1 + m = m + 1 by omega, hget, Nat.add_comm]
      next hne =>
        rw [hys j hj]
        rcases Nat.lt_or_ge m j with hlt | hge
        · rw [if_neg (by omega), if_neg (by omega)]
        · rw [if_pos hge, if_pos (by omega)]
  obtain ⟨-, h⟩ := hrun (xs.length - 1) (by omega)
  have := h k hk
  rwa [if_pos (by omega)] at this

theorem start_succ (k : Nat) : start key items (k + 1) = start key items k +
    (group key items k).length := by
  simp [start, List.range_succ]

/-- Buckets start one after the other. -/
theorem start_mono {j k : Nat} (h : j ≤ k) : start key items j ≤ start key items k := by
  induction k with
  | zero =>
    obtain rfl := Nat.le_zero.1 h
    exact Nat.le_refl _
  | succ k ih =>
    rcases Nat.lt_or_eq_of_le h with h | rfl
    · rw [start_succ]
      exact Nat.le_add_right_of_le (ih (Nat.le_of_lt_succ h))
    · exact Nat.le_refl _

/-- The buckets start at the sums of the sizes before them. -/
theorem offsets_getD (k : Nat) (hk : k < n + 1) :
    (offsets key n items).getD k 0 = start key items k := by
  have hsum : ((counts key n items).take (k + 1)).sum = start key items k := by
    induction k with
    | zero =>
      rw [List.take_add_one, counts_getElem? 0 hk]
      simp [start]
    | succ k ih =>
      rw [List.take_add_one, counts_getElem? (k + 1) hk, List.sum_append, ih (by omega), start_succ]
      simp
  rw [List.getD_eq_getElem?_getD, offsets, accumulate_getElem? _ _ (by simpa using hk), hsum]
  rfl

/-- The places are as many as the items. -/
theorem start_le (h : ∀ item ∈ items, key item < n) (k : Nat) (hk : k ≤ n) :
    start key items k ≤ items.length := by
  refine Nat.le_trans (start_mono hk) (Nat.le_of_eq ?_)
  induction items using List.reverseRecOn with
  | nil => simp [start, group]
  | append_singleton items item ih =>
    have ih := ih fun x hx => h x (List.mem_append_left _ hx)
    have hkey := h item (by simp)
    have hgroup : ∀ m, start key (items ++ [item]) m =
        start key items m + if key item < m then 1 else 0 := by
      intro m
      induction m with
      | zero => simp [start]
      | succ m ihm =>
        rw [start_succ, start_succ, ihm]
        by_cases heq : key item = m
        · simp [group, List.filter_append, heq]
          omega
        · simp only [group, List.filter_append, List.length_append]
          have : [item].filter (fun x => decide (key x = m)) = [] := by simp [heq]
          rw [this, List.length_nil]
          split <;> split <;> omega
    rw [hgroup, ih, if_pos hkey, List.length_append]
    rfl

/-- An entry of a bucket lies between the start of the bucket and that of the next one. -/
theorem bucket_getElem? (placed : List α) (offsets : List Nat) (k i : Nat) :
    (bucket placed offsets k)[i]? =
      if offsets.getD k 0 + i < offsets.getD (k + 1) 0 then placed[offsets.getD k 0 + i]?
      else none := by
  unfold bucket
  rw [List.getElem?_drop, List.getElem?_take]

/-- Each bucket has the items of its key, in order. -/
theorem bucket_place (h : ∀ item ∈ items, key item < n) (blank : α) {k : Nat} (hk : k < n) :
    (place key n items blank).length = items.length ∧
      bucket (place key n items blank) (offsets key n items) k = group key items k := by
  have hrun : ∀ done rest, items = done ++ rest →
      let state := done.foldl (fun (state : List α × List Nat) item =>
        (state.1.set (state.2.getD (key item) 0) item, state.2.modify (key item) (· + 1)))
        (List.replicate items.length blank, (offsets key n items).take n)
      state.1.length = items.length ∧
        (∀ k < n, state.2[k]? = some (start key items k + (group key done k).length)) ∧
        ∀ k < n, ∀ i < (group key done k).length,
          state.1[start key items k + i]? = (group key done k)[i]? := by
    intro done
    induction done using List.reverseRecOn with
    | nil =>
      intro rest _
      refine ⟨by simp, fun k hk => ?_, fun k _ i hi => absurd hi (Nat.not_lt_zero _)⟩
      have hlength : (offsets key n items).length = n + 1 := by
        have hset : ∀ (is : List Nat) (xs : List Nat), (is.foldl
            (fun offsets i => offsets.set i (offsets.getD i 0 + offsets.getD (i - 1) 0))
            xs).length =
              xs.length := by
          intro is
          induction is with
          | nil => exact fun _ => rfl
          | cons i is ih => intro xs; rw [List.foldl_cons, ih, List.length_set]
        rw [offsets, accumulate, hset, length_counts]
      have hget : (offsets key n items).getD k 0 = start key items k :=
        offsets_getD k (Nat.lt_succ_of_lt hk)
      rw [List.getD_eq_getElem?_getD, List.getElem?_eq_getElem (by omega)] at hget
      simp only [List.foldl_nil, List.getElem?_take, if_pos hk]
      rw [List.getElem?_eq_getElem (by omega)]
      simpa [group] using hget
    | append_singleton done item ih =>
      intro rest hsplit
      obtain ⟨hlength, hnext, hplaced⟩ := ih (item :: rest) (by simpa using hsplit)
      have hkey : key item < n := h item (by rw [hsplit]; simp)
      rw [List.foldl_append]
      simp only [List.foldl_cons, List.foldl_nil]
      set state := done.foldl (fun (state : List α × List Nat) item =>
        (state.1.set (state.2.getD (key item) 0) item, state.2.modify (key item) (· + 1)))
        (List.replicate items.length blank, (offsets key n items).take n)
      have hat : state.2.getD (key item) 0 =
          start key items (key item) + (group key done (key item)).length := by
        rw [List.getD_eq_getElem?_getD, hnext _ hkey]
        rfl
      -- The place is inside the bucket of the key.
      have hgrow : ∀ k, group key (done ++ [item]) k =
          group key done k ++ if key item = k then [item] else [] := by
        intro k
        simp only [group, List.filter_append]
        by_cases heq : key item = k <;> simp [heq]
      have hsize : ∀ k, (group key (done ++ [item]) k).length ≤ (group key items k).length := by
        intro k
        rw [hsplit]
        simp only [group, List.filter_append, List.length_append]
        omega
      have hroom : (group key done (key item)).length < (group key items (key item)).length := by
        refine Nat.lt_of_lt_of_le ?_ (hsize (key item))
        rw [hgrow, if_pos rfl, List.length_append]
        exact Nat.lt_succ_self _
      have hbound : start key items (key item) + (group key done (key item)).length <
          state.1.length := by
        have := start_le h (key item + 1) hkey
        rw [start_succ] at this
        omega
      refine ⟨by rw [List.length_set, hlength], fun k hk => ?_, fun k hk i hi => ?_⟩
      · rw [List.getElem?_modify, hnext k hk, hgrow]
        by_cases heq : key item = k
        · simp [heq, Nat.add_assoc]
        · simp [heq]
      · rw [hat, List.getElem?_set, hgrow]
        rw [hgrow] at hi
        by_cases heq : key item = k
        · subst heq
          rw [if_pos rfl] at hi ⊢
          rw [List.length_append, List.length_singleton] at hi
          rcases Nat.lt_or_ge i (group key done (key item)).length with hlt | hge
          · rw [if_neg (by omega), hplaced _ hkey i hlt, List.getElem?_append_left hlt]
          · obtain rfl : i = (group key done (key item)).length := by omega
            rw [if_pos rfl, if_pos hbound, List.getElem?_concat_length]
        · rw [if_neg heq, List.append_nil] at hi ⊢
          have hi' := hsize k
          rw [hgrow, if_neg heq, List.append_nil] at hi'
          have hapart : start key items (key item) + (group key done (key item)).length ≠
              start key items k + i := by
            rcases Nat.lt_or_gt_of_ne heq with hlt | hgt
            · have : start key items _ ≤ start key items _ := start_mono (Nat.succ_le_of_lt hlt)
              rw [Nat.succ_eq_add_one, start_succ] at this
              omega
            · have : start key items _ ≤ start key items _ := start_mono (Nat.succ_le_of_lt hgt)
              rw [Nat.succ_eq_add_one, start_succ] at this
              omega
          rw [if_neg hapart, hplaced k hk i hi]
  obtain ⟨hlength, -, hplaced⟩ := hrun items [] (by simp)
  refine ⟨hlength, List.ext_getElem? fun i => ?_⟩
  rw [bucket_getElem?, offsets_getD k (by omega), offsets_getD (k + 1) (by omega), start_succ]
  split
  next hlt => exact hplaced k hk i (by omega)
  next hge => exact (List.getElem?_eq_none (by omega)).symm

/-- Sorting the buckets in place sorts each of them. -/
theorem bucket_sortBuckets (h : ∀ item ∈ items, key item < n) (blank : α)
    {sort : List α → List α} (hsort : ∀ xs, (sort xs).Perm xs) {k : Nat} (hk : k < n) :
    bucket (sortBuckets n sort (place key n items blank) (offsets key n items))
      (offsets key n items) k = sort (group key items k) := by
  have hrun : ∀ m ≤ n,
      let sorted := (List.range m).foldl (fun placed k =>
        placed.take ((offsets key n items).getD k 0) ++
          (sort (bucket placed (offsets key n items) k) ++
            placed.drop ((offsets key n items).getD (k + 1) 0))) (place key n items blank)
      sorted.length = items.length ∧ ∀ k < n, bucket sorted (offsets key n items) k =
        if k < m then sort (group key items k) else group key items k := by
    intro m
    induction m with
    | zero =>
      intro hm
      refine ⟨(bucket_place h blank hk).1, fun k hk => ?_⟩
      rw [if_neg (Nat.not_lt_zero _)]
      exact (bucket_place h blank hk).2
    | succ m ih =>
      intro hm
      obtain ⟨hlength, hbuckets⟩ := ih (Nat.le_of_succ_le hm)
      rw [List.range_succ, List.foldl_append]
      simp only [List.foldl_cons, List.foldl_nil]
      set sorted := (List.range m).foldl (fun placed k =>
        placed.take ((offsets key n items).getD k 0) ++
          (sort (bucket placed (offsets key n items) k) ++
            placed.drop ((offsets key n items).getD (k + 1) 0))) (place key n items blank)
      have hbucket := hbuckets m hm
      rw [if_neg (Nat.lt_irrefl _)] at hbucket
      rw [hbucket, offsets_getD m (by omega), offsets_getD (m + 1) (by omega)]
      have hstart := start_le h m (by omega)
      have hend := start_le h (m + 1) hm
      have hsize : start key items (m + 1) = _ := start_succ m
      have hperm : (sort (group key items m)).length = (group key items m).length :=
        (hsort _).length_eq
      have htake : (sorted.take (start key items m)).length = start key items m := by
        rw [List.length_take, hlength]
        omega
      refine ⟨by simp only [List.length_append, htake, hperm, List.length_drop]; omega,
        fun k hk => List.ext_getElem? fun i => ?_⟩
      rw [bucket_getElem?, offsets_getD k (by omega), offsets_getD (k + 1) (by omega)]
      have hsize' : start key items (k + 1) = _ := start_succ k
      have hold := congrArg (·[i]?) (hbuckets k hk)
      rw [bucket_getElem?, offsets_getD k (by omega), offsets_getD (k + 1) (by omega)] at hold
      rcases Nat.lt_trichotomy k m with hlt | rfl | hgt
      · -- Before the sorted bucket.
        have hmono : start key items _ ≤ start key items _ := start_mono (Nat.succ_le_of_lt hlt)
        rw [Nat.succ_eq_add_one] at hmono
        rw [if_pos hlt] at hold
        rw [if_pos (show k < m + 1 by omega), ← hold]
        split
        next hin => rw [List.getElem?_append_left (by omega), List.getElem?_take, if_pos (by omega)]
        next hout => rfl
      · rw [if_pos (Nat.lt_succ_self _)]
        split
        next hin =>
          rw [List.getElem?_append_right (by omega), htake, Nat.add_sub_cancel_left,
            List.getElem?_append_left (by omega)]
        next hout => exact (List.getElem?_eq_none (by omega)).symm
      · -- After it.
        have hmono : start key items _ ≤ start key items _ := start_mono (Nat.succ_le_of_lt hgt)
        rw [Nat.succ_eq_add_one] at hmono
        rw [if_neg (show ¬k < m by omega)] at hold
        rw [if_neg (show ¬k < m + 1 by omega), ← hold]
        split
        next hin =>
          rw [List.getElem?_append_right (by omega), htake, List.getElem?_append_right (by omega),
            hperm, List.getElem?_drop]
          congr 1
          omega
        next hout => rfl
  have := (hrun n (Nat.le_refl n)).2 k hk
  rwa [if_pos hk] at this

/-- The searches in a bucket find the items of a key and a name, each as often as it occurs. -/
theorem named_bucket [LinearOrder κ] (h : ∀ item ∈ items, key item < n) (blank : α)
    (sort : Sorting α κ) (nameOf : α → κ) {k : Nat} (hk : k < n) (name : κ) :
    (named nameOf (bucket (sortBuckets n (sort.run nameOf) (place key n items blank)
      (offsets key n items)) (offsets key n items) k) name).Perm
        (items.filter fun item => key item = k ∧ nameOf item = name) := by
  rw [bucket_sortBuckets h blank (sort.perm nameOf) hk, named_eq_filter (sort.sorted nameOf _)]
  refine ((sort.perm nameOf _).filter _).trans (List.Perm.of_eq ?_)
  rw [group, List.filter_filter]
  congr 1
  funext item
  simp [Bool.and_comm]

end

end Ondas.Library
