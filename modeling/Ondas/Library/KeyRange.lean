import Mathlib.Algebra.Order.Ring.Int
import Mathlib.Data.List.Basic
import Mathlib.Order.Basic

/-!
# Ranges of equal keys

In a list whose keys ascend, the entries of one key are next to each other. `keyRange` finds them by
a search for the first one, and `keyRanges` finds those of several ascending keys in one pass, each
where the one before it ended. Both give the same ranges when the keys of the list are among those
that are looked for (`keyRanges_get`). Taken key by key, the entries of some keys are in the order
of the list (`flatMap_filter_key`).
-/

namespace Ondas.Library

variable {α κ : Type*} [LinearOrder κ]

/-- The range of a key: from the first entry that is not below it to the end of the equal ones. -/
def keyRange (keys : List κ) (k : κ) : Nat × Nat :=
  let start := (keys.takeWhile fun key => decide (key < k)).length
  (start, start + ((keys.drop start).takeWhile fun key => decide (key = k)).length)

/-- The ranges of some keys, each from where the one before it ended. -/
def keyRanges (keys : List κ) : List κ → Nat → List (Nat × Nat)
  | [], _ => []
  | k :: ks, cursor =>
    let stop := cursor + ((keys.drop cursor).takeWhile fun key => decide (key = k)).length
    (cursor, stop) :: keyRanges keys ks stop

/-- Entries parted at a key: those below it, those of it, and those above it. -/
structure Parted (key : α → κ) (k : κ) (entries below equal above : List α) : Prop where
  eq : entries = below ++ (equal ++ above)
  below : ∀ a ∈ below, key a < k
  equal : ∀ a ∈ equal, key a = k
  above : ∀ a ∈ above, k < key a

section
variable {key : α → κ} {k : κ} {entries below equal above : List α}

/-- Entries whose keys ascend are parted at every key. -/
theorem exists_parted (hsorted : entries.Pairwise fun a b => key a ≤ key b) (k : κ) :
    ∃ below equal above, Parted key k entries below equal above := by
  induction entries with
  | nil => exact ⟨[], [], [], rfl, nofun, nofun, nofun⟩
  | cons a rest ih =>
    obtain ⟨hle, hrest⟩ := List.pairwise_cons.1 hsorted
    rcases lt_trichotomy (key a) k with hlt | heq | hgt
    · obtain ⟨below, equal, above, hparted⟩ := ih hrest
      refine ⟨a :: below, equal, above, congrArg (a :: ·) hparted.eq, fun b hb => ?_, hparted.equal,
        hparted.above⟩
      rcases List.mem_cons.1 hb with rfl | hb
      · exact hlt
      · exact hparted.below b hb
    · obtain ⟨below, equal, above, hparted⟩ := ih hrest
      have hnone : below = [] := by
        cases below with
        | nil => rfl
        | cons b below =>
          have hb : b ∈ rest := hparted.eq ▸ .head _
          exact absurd (hparted.below b (.head _)) (heq ▸ hle b hb).not_gt
      subst hnone
      refine ⟨[], a :: equal, above, congrArg (a :: ·) hparted.eq, nofun, fun b hb => ?_,
        hparted.above⟩
      rcases List.mem_cons.1 hb with rfl | hb
      · exact heq
      · exact hparted.equal b hb
    · refine ⟨[], [], a :: rest, rfl, nofun, nofun, fun b hb => ?_⟩
      rcases List.mem_cons.1 hb with rfl | hb
      · exact hgt
      · exact hgt.trans_le (hle b hb)

/-- What a scan takes of a part that satisfies its condition, before one that does not. -/
theorem takeWhile_append {p : α → Bool} {front back : List α} (hfront : ∀ a ∈ front, p a = true)
    (hback : ∀ a ∈ back, p a = false) : (front ++ back).takeWhile p = front := by
  rw [List.takeWhile_append_of_pos hfront]
  cases back with
  | nil => rw [List.takeWhile_nil, List.append_nil]
  | cons a back =>
    rw [List.takeWhile_cons_of_neg (by rw [hback a (.head _)]; exact Bool.false_ne_true),
      List.append_nil]

/-- A scan for a condition that does not come back takes all entries that satisfy it. -/
theorem takeWhile_eq_filter {p : α → Bool} {entries : List α}
    (h : entries.Pairwise fun a b => p b = true → p a = true) :
    entries.takeWhile p = entries.filter p := by
  induction entries with
  | nil => rfl
  | cons a entries ih =>
    obtain ⟨hfirst, hrest⟩ := List.pairwise_cons.1 h
    cases ha : p a with
    | true => rw [List.takeWhile_cons_of_pos ha, List.filter_cons_of_pos ha, ih hrest]
    | false =>
      have hnone : (a :: entries).filter p = [] := by
        refine List.filter_eq_nil_iff.2 fun b hb htrue => ?_
        rcases List.mem_cons.1 hb with rfl | hb
        · exact Bool.false_ne_true (ha.symm.trans htrue)
        · exact Bool.false_ne_true (ha.symm.trans (hfirst b hb htrue))
      rw [hnone, List.takeWhile_cons_of_neg (by rw [ha]; exact Bool.false_ne_true)]

namespace Parted

/-- The scan for the keys below. -/
theorem takeWhile_below (h : Parted key k entries below equal above) :
    (entries.takeWhile fun a => decide (key a < k)) = below := by
  rw [h.eq]
  refine takeWhile_append (fun a ha => decide_eq_true (h.below a ha)) fun a ha => ?_
  rcases List.mem_append.1 ha with ha | ha
  · exact decide_eq_false (h.equal a ha).not_lt
  · exact decide_eq_false (h.above a ha).not_gt

/-- The scan for the equal keys after them. -/
theorem takeWhile_equal (h : Parted key k entries below equal above) :
    ((entries.drop below.length).takeWhile fun a => decide (key a = k)) = equal := by
  rw [h.eq, List.drop_left]
  exact takeWhile_append (fun a ha => decide_eq_true (h.equal a ha))
    fun a ha => decide_eq_false (h.above a ha).ne'

/-- The entries of the key. -/
theorem filter_equal (h : Parted key k entries below equal above) :
    (entries.filter fun a => decide (key a = k)) = equal := by
  have hbelow : (below.filter fun a => decide (key a = k)) = [] :=
    List.filter_eq_nil_iff.2 fun a ha heq => (h.below a ha).ne (of_decide_eq_true heq)
  have habove : (above.filter fun a => decide (key a = k)) = [] :=
    List.filter_eq_nil_iff.2 fun a ha heq => (h.above a ha).ne' (of_decide_eq_true heq)
  have hequal : (equal.filter fun a => decide (key a = k)) = equal :=
    List.filter_eq_self.2 fun a ha => decide_eq_true (h.equal a ha)
  rw [h.eq, List.filter_append, List.filter_append, hbelow, hequal, habove, List.nil_append,
    List.append_nil]

/-- The parts of the keys themselves. -/
theorem map (h : Parted key k entries below equal above) :
    Parted id k (entries.map key) (below.map key) (equal.map key) (above.map key) := by
  refine ⟨by rw [h.eq, List.map_append, List.map_append], ?_, ?_, ?_⟩
  · exact List.forall_mem_map.2 h.below
  · exact List.forall_mem_map.2 h.equal
  · exact List.forall_mem_map.2 h.above

/-- Entries are parted in one way. -/
theorem unique {below' equal' above' : List α} (h : Parted key k entries below equal above)
    (h' : Parted key k entries below' equal' above') :
    below' = below ∧ equal' = equal ∧ above' = above := by
  have hbelow : below' = below := h'.takeWhile_below.symm.trans h.takeWhile_below
  have hequal : equal' = equal := h'.filter_equal.symm.trans h.filter_equal
  refine ⟨hbelow, hequal, ?_⟩
  have heq := h'.eq.symm.trans h.eq
  rw [hbelow, hequal] at heq
  exact List.append_cancel_left (List.append_cancel_left heq)

/-- A search for the key finds its entries. -/
theorem keyRange (h : Parted key k entries below equal above) :
    keyRange (entries.map key) k = (below.length, below.length + equal.length) := by
  have hbelow := h.map.takeWhile_below
  have hequal := h.map.takeWhile_equal
  simp only [id_eq, List.length_map] at hbelow hequal
  unfold Library.keyRange
  dsimp only
  rw [hbelow, List.length_map, hequal, List.length_map]

end Parted

/-- The entries of ascending keys, key by key, are those of all of them. -/
theorem flatMap_filter_key (hsorted : entries.Pairwise fun a b => key a ≤ key b) :
    ∀ {ks : List κ}, ks.Pairwise (· < ·) →
      (ks.flatMap fun k => entries.filter fun a => decide (key a = k)) =
        entries.filter fun a => decide (key a ∈ ks)
  | [], _ => (List.filter_eq_nil_iff.2 fun _ _ h => nomatch of_decide_eq_true h).symm
  | k :: ks, hks => by
    obtain ⟨hfirst, hks⟩ := List.pairwise_cons.1 hks
    obtain ⟨below, equal, above, hparted⟩ := exists_parted hsorted k
    have hlow : ∀ a ∈ below ++ equal, key a ∉ ks := by
      intro a ha hmem
      rcases List.mem_append.1 ha with ha | ha
      · exact (hparted.below a ha).asymm (hfirst _ hmem)
      · exact (hparted.equal a ha).not_gt (hfirst _ hmem)
    have habove : ∀ a ∈ above, decide (key a ∈ k :: ks) = decide (key a ∈ ks) := fun a ha =>
      decide_eq_decide.2 (List.mem_cons.trans (or_iff_right (hparted.above a ha).ne'))
    have hrest : (entries.filter fun a => decide (key a ∈ ks)) =
        above.filter fun a => decide (key a ∈ ks) := by
      rw [hparted.eq, ← List.append_assoc, List.filter_append,
        List.filter_eq_nil_iff.2 fun a ha => by simpa using hlow a ha, List.nil_append]
    have hbelow : (below.filter fun a => decide (key a ∈ k :: ks)) = [] := by
      refine List.filter_eq_nil_iff.2 fun a ha htrue => ?_
      rcases List.mem_cons.1 (of_decide_eq_true htrue) with heq | hmem
      · exact (hparted.below a ha).ne heq
      · exact hlow a (List.mem_append_left _ ha) hmem
    have hequal : (equal.filter fun a => decide (key a ∈ k :: ks)) = equal :=
      List.filter_eq_self.2 fun a ha =>
        decide_eq_true (List.mem_cons.2 (.inl (hparted.equal a ha)))
    rw [List.flatMap_cons, hparted.filter_equal, flatMap_filter_key hsorted hks, hrest]
    conv_rhs => rw [hparted.eq]
    rw [List.filter_append, List.filter_append, hbelow, hequal, List.nil_append,
      List.filter_congr habove]

end

/-! ## Several keys -/

section
variable {keys : List κ} {k : κ}

/-- The first entry that is above a key is where the next key that occurs starts. -/
theorem keyRange_next (hsorted : keys.Pairwise (· ≤ ·)) {k' : κ} (hlt : k < k')
    (hbetween : ∀ key ∈ keys, key < k' → key ≤ k) : (keyRange keys k').1 = (keyRange keys k).2 := by
  have hparted : ∀ k, ∃ below equal above, Parted id k keys below equal above :=
    fun k => exists_parted hsorted k
  obtain ⟨below, equal, above, h⟩ := hparted k
  obtain ⟨below', equal', above', h'⟩ := hparted k'
  have hrange := h.keyRange
  have hrange' := h'.keyRange
  rw [List.map_id] at hrange hrange'
  rw [hrange, hrange']
  have hfront : (keys.takeWhile fun key => decide (id key < k')) = below ++ equal := by
    rw [h.eq, ← List.append_assoc]
    refine takeWhile_append (fun key hkey => decide_eq_true ?_) fun key hkey => decide_eq_false ?_
    · rcases List.mem_append.1 hkey with hkey | hkey
      · exact (h.below key hkey).trans hlt
      · exact (h.equal key hkey).trans_lt hlt
    · intro hkey'
      have hmem : key ∈ keys := h.eq ▸ List.mem_append_right _ (List.mem_append_right _ hkey)
      exact (h.above key hkey).not_ge (hbetween key hmem hkey')
  rw [h'.takeWhile_below] at hfront
  show below'.length = below.length + equal.length
  rw [hfront, List.length_append]

/-- One pass over ascending keys that include those of the list finds the range of each. -/
theorem keyRanges_get (hsorted : keys.Pairwise (· ≤ ·)) (ks : List κ) : ∀ cursor,
    ks.Pairwise (· < ·) → (∀ k ∈ ks.head?, cursor = (keyRange keys k).1) →
    (∀ key ∈ keys, key ∈ ks ∨ ∀ k ∈ ks, key < k) → ∀ (i : Nat) (k : κ), ks[i]? = some k →
    (keyRanges keys ks cursor)[i]? = some (keyRange keys k) := by
  induction ks with
  | nil => exact fun _ _ _ _ _ _ h => by cases h
  | cons k ks ih =>
    intro cursor hks hcursor hkeys i k' hk'
    obtain ⟨hlt, hrest⟩ := List.pairwise_cons.1 hks
    have hstart : cursor = (keyRange keys k).1 := hcursor k rfl
    have hrange :
        (cursor, cursor + ((keys.drop cursor).takeWhile fun key => decide (key = k)).length) =
        keyRange keys k := by
      subst hstart
      rfl
    cases i with
    | zero =>
      cases hk'
      exact congrArg some hrange
    | succ i =>
      refine ih _ hrest (fun next hnext => ?_) (fun key hkey => ?_) i k' hk'
      · have hmem := List.mem_of_mem_head? hnext
        refine (congrArg Prod.snd hrange).trans (keyRange_next hsorted (hlt next hmem) ?_).symm
        intro key hkey hbelow
        rcases hkeys key hkey with hin | hout
        · rcases List.mem_cons.1 hin with rfl | hin
          · exact le_rfl
          · cases ks with
            | nil => cases hin
            | cons first ks =>
              cases hnext
              rcases List.mem_cons.1 hin with rfl | hin
              · exact absurd hbelow (lt_irrefl _)
              · exact absurd hbelow ((List.pairwise_cons.1 hrest).1 key hin).not_gt
        · exact (hout k (.head _)).le
      · rcases hkeys key hkey with hin | hout
        · rcases List.mem_cons.1 hin with rfl | hin
          · exact .inr hlt
          · exact .inl hin
        · exact .inr fun k hk => hout k (.tail _ hk)

end

end Ondas.Library
