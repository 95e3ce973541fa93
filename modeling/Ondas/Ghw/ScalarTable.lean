import Ondas.Ghw.Mapper

/-!
# The types of source IDs

A scalar table gives a source ID the scalar type of the first leaf that has it. It keeps the types
in blocks of slots, and moves to a map when most slots stay free (`ScalarTable.entries` is what it
holds in either form). An insertion changes nothing for other source IDs, also when the table moves
(`Sound.insert`), and the active table lists the entries in the order of their source IDs
(`Sound.mem_intoActive`, `Sound.intoActive_sorted`).
-/

namespace Ondas.Ghw

open Library Wire

namespace ScalarTable

/-- The source IDs of a table with their types. -/
def entries : ScalarTable → List (Nat × Nat)
  | .blocks blockIndex _ _ => taken blockIndex
  | .sparse table => table

/-- The blocks have their length and cover the source IDs up to `maxId`; a map has a source ID
once. -/
inductive Sound (maxId : Nat) : ScalarTable → Prop
  | blocks {blockIndex : List (Option (List (Option Nat)))} {used allocated : Nat} :
      (∀ slots, some slots ∈ blockIndex → slots.length = scalarBlockLen) →
      maxId >>> scalarBlockBits < blockIndex.length →
      Sound maxId (.blocks blockIndex used allocated)
  | sparse {table : List (Nat × Nat)} : (table.map Prod.fst).Nodup → Sound maxId (.sparse table)

/-! ## Slots -/

section
variable {index offset id type maxId : Nat} {blockIndex : List (Option (List (Option Nat)))}
  {used allocated : Nat} {table : ScalarTable}

/-- A block and an offset inside it make up a number. -/
theorem shiftLeft_eq (hoffset : offset < scalarBlockLen) :
    (index <<< scalarBlockBits) ||| offset = index * scalarBlockLen + offset := by
  rw [← Nat.shiftLeft_add_eq_or_of_lt hoffset, Nat.shiftLeft_eq]
  rfl

/-- The block and the slot of a source ID. -/
theorem slot_eq (id : Nat) : id >>> scalarBlockBits = id / scalarBlockLen ∧
    id &&& (scalarBlockLen - 1) = id % scalarBlockLen :=
  ⟨Nat.shiftRight_eq_div_pow _ _, Nat.and_two_pow_sub_one_eq_mod _ _⟩

theorem scalarBlockLen_pos : 0 < scalarBlockLen := Nat.two_pow_pos _

/-- The source ID of a slot leads back to it. -/
theorem slot_join (index : Nat) (hoffset : offset < scalarBlockLen) :
    ((index <<< scalarBlockBits) ||| offset) >>> scalarBlockBits = index ∧
      ((index <<< scalarBlockBits) ||| offset) &&& (scalarBlockLen - 1) = offset := by
  rw [(slot_eq _).1, (slot_eq _).2, shiftLeft_eq hoffset]
  constructor
  · rw [Nat.mul_comm, Nat.mul_add_div scalarBlockLen_pos, Nat.div_eq_of_lt hoffset, Nat.add_zero]
  · rw [Nat.mul_comm, Nat.mul_add_mod, Nat.mod_eq_of_lt hoffset]

/-- A source ID is that of its slot. -/
theorem join_slot (id : Nat) :
    ((id >>> scalarBlockBits) <<< scalarBlockBits) ||| (id &&& (scalarBlockLen - 1)) = id := by
  have hoffset : id &&& (scalarBlockLen - 1) < scalarBlockLen := by
    rw [(slot_eq id).2]
    exact Nat.mod_lt _ scalarBlockLen_pos
  rw [shiftLeft_eq hoffset, (slot_eq id).1, (slot_eq id).2, Nat.div_add_mod']

/-- A slot that is taken. -/
theorem mem_taken_iff : (id, type) ∈ taken blockIndex ↔ ∃ index block offset,
    blockIndex[index]? = some (some block) ∧ block[offset]? = some (some type) ∧
      (index <<< scalarBlockBits) ||| offset = id := by
  unfold taken
  rw [List.mem_flatMap]
  constructor
  · rintro ⟨⟨block, index⟩, hblock, hslot⟩
    obtain ⟨⟨slot, offset⟩, hoffset, heq⟩ := List.mem_filterMap.1 hslot
    obtain ⟨type', rfl, hid⟩ : ∃ type', slot = some type' ∧ _ := Option.map_eq_some_iff.1 heq
    cases hid
    have hblock' := List.mk_mem_zipIdx_iff_getElem?.1 hblock
    have hoffset' := List.mk_mem_zipIdx_iff_getElem?.1 hoffset
    cases block with
    | none => cases hoffset'
    | some block => exact ⟨index, block, offset, hblock', hoffset', rfl⟩
  · rintro ⟨index, block, offset, hblock, hslot, rfl⟩
    refine ⟨(some block, index), List.mk_mem_zipIdx_iff_getElem?.2 hblock, ?_⟩
    exact List.mem_filterMap.2 ⟨(some type, offset), List.mk_mem_zipIdx_iff_getElem?.2 hslot, rfl⟩

/-- An ID has a type when its block has been made and has one at its offset. -/
theorem get_blocks_iff : get id (.blocks blockIndex used allocated) = some type ↔ ∃ block,
    blockIndex[id >>> scalarBlockBits]? = some (some block) ∧
      block[id &&& (scalarBlockLen - 1)]? = some (some type) := by
  unfold get
  rw [Option.bind_eq_some_iff]
  simp only [Option.join_eq_some_iff]

/-- What is taken is what the table gives. -/
theorem mem_taken (hlength : ∀ slots, some slots ∈ blockIndex → slots.length = scalarBlockLen) :
    (id, type) ∈ taken blockIndex ↔ get id (.blocks blockIndex used allocated) = some type := by
  rw [mem_taken_iff, get_blocks_iff]
  constructor
  · rintro ⟨index, block, offset, hblock, hslot, rfl⟩
    have hoffset : offset < scalarBlockLen := by
      rw [← hlength block (List.mem_of_getElem? hblock)]
      exact (List.getElem?_eq_some_iff.1 hslot).1
    obtain ⟨hindex, hoffset'⟩ := slot_join index hoffset
    rw [hindex, hoffset']
    exact ⟨block, hblock, hslot⟩
  · rintro ⟨block, hblock, hslot⟩
    exact ⟨_, block, _, hblock, hslot, join_slot id⟩

/-- The positions of a list ascend. -/
theorem zipIdx_sorted {α : Type} (l : List α) : l.zipIdx.Pairwise fun a b => a.2 < b.2 := by
  have h : (l.zipIdx.map Prod.snd).Pairwise (· < ·) := by
    rw [List.zipIdx_map_snd]
    exact List.pairwise_lt_range' 1
  exact List.pairwise_map.1 h

/-- The slots are taken in the order of their source IDs. -/
theorem taken_sorted (hlength : ∀ slots, some slots ∈ blockIndex → slots.length = scalarBlockLen) :
    (taken blockIndex).Pairwise fun a b => a.1 < b.1 := by
  have hoffset : ∀ block ∈ blockIndex, ∀ entry ∈ (block.getD []).zipIdx,
      entry.2 < scalarBlockLen := by
    intro block hblock entry hentry
    cases block with
    | none => cases hentry
    | some slots => exact hlength slots hblock ▸ List.snd_lt_of_mem_zipIdx hentry
  have hentry : ∀ {index : Nat} {x : Option Nat × Nat} {a : Nat × Nat},
      (x.1.map fun type => ((index <<< scalarBlockBits) ||| x.2, type)) = some a →
        a.1 = (index <<< scalarBlockBits) ||| x.2 := by
    intro index x a h
    obtain ⟨type, -, rfl⟩ := Option.map_eq_some_iff.1 h
    rfl
  refine List.pairwise_flatMap.2 ⟨fun b hb => ?_, ?_⟩
  · obtain ⟨block, index⟩ := b
    have hblock := List.mem_of_getElem? (List.mk_mem_zipIdx_iff_getElem?.1 hb)
    refine List.pairwise_filterMap.2 (((zipIdx_sorted _).imp_of_mem ?_))
    intro x y hx hy hlt a ha b hb
    rw [hentry ha, hentry hb, shiftLeft_eq (hoffset block hblock x hx),
      shiftLeft_eq (hoffset block hblock y hy)]
    exact Nat.add_lt_add_left hlt _
  · refine (zipIdx_sorted blockIndex).imp_of_mem ?_
    rintro ⟨block, index⟩ ⟨block', index'⟩ hb hb' hlt a ha a' ha'
    have hblock := List.mem_of_getElem? (List.mk_mem_zipIdx_iff_getElem?.1 hb)
    have hblock' := List.mem_of_getElem? (List.mk_mem_zipIdx_iff_getElem?.1 hb')
    obtain ⟨x, hx, hxa⟩ := List.mem_filterMap.1 ha
    obtain ⟨y, hy, hya⟩ := List.mem_filterMap.1 ha'
    have hltx := hoffset block hblock x hx
    rw [hentry hxa, hentry hya, shiftLeft_eq hltx, shiftLeft_eq (hoffset block' hblock' y hy)]
    have hstep : (index + 1) * scalarBlockLen ≤ index' * scalarBlockLen :=
      Nat.mul_le_mul_right _ hlt
    rw [Nat.succ_mul] at hstep
    omega

theorem nodup_of_sorted {entries : List (Nat × Nat)} (h : entries.Pairwise fun a b => a.1 < b.1) :
    (entries.map Prod.fst).Nodup :=
  List.pairwise_map.2 (h.imp Nat.ne_of_lt)

/-- A map has an entry when it gives it. -/
theorem mem_iff_lookup {entries : List (Nat × Nat)} (h : (entries.map Prod.fst).Nodup) :
    (id, type) ∈ entries ↔ entries.lookup id = some type := by
  rw [List.lookup_eq_some_iff]
  constructor
  · intro hmem
    obtain ⟨before, after, rfl⟩ := List.append_of_mem hmem
    refine ⟨before, after, rfl, fun p hp => ?_⟩
    rw [List.map_append, List.nodup_append] at h
    have hne := h.2.2 p.1 (List.mem_map_of_mem hp) id (List.mem_map_of_mem (.head _))
    exact bne_iff_ne.2 hne.symm
  · rintro ⟨before, after, rfl, -⟩
    exact List.mem_append_right _ (.head _)

/-! ## Tables -/

/-- A table holds what it gives. -/
theorem Sound.mem_entries (h : table.Sound maxId) :
    (id, type) ∈ table.entries ↔ table.get id = some type := by
  cases h with
  | blocks hlength => exact mem_taken hlength
  | sparse hnodup => exact mem_iff_lookup hnodup

/-- A new table is sound: it is empty, in either form. -/
theorem new_sound (maxId : Nat) (wire : Wire) : (new maxId wire).Sound maxId := by
  unfold new
  dsimp only
  split
  · refine .blocks (fun slots hslots => ?_) ?_
    · cases List.eq_of_mem_replicate hslots
    · rw [List.length_replicate, (slot_eq maxId).1, Nat.add_div_right _ scalarBlockLen_pos]
      exact Nat.lt_succ_self _
  · exact .sparse List.nodup_nil

/-- A table that moves to a map gives the same types. -/
theorem Sound.switchToSparse (h : table.Sound maxId) :
    table.switchToSparse.Sound maxId ∧ ∀ id, table.switchToSparse.get id = table.get id := by
  cases h with
  | sparse hnodup => exact ⟨.sparse hnodup, fun _ => rfl⟩
  | blocks hlength hcover =>
    have hnodup := nodup_of_sorted (taken_sorted hlength)
    refine ⟨.sparse hnodup, fun id => Option.ext fun type => ?_⟩
    rw [← mem_taken hlength]
    exact (mem_iff_lookup hnodup).symm

/-- A slot that is set. -/
theorem get_set (hlength : ∀ slots, some slots ∈ blockIndex → slots.length = scalarBlockLen)
    {block : Option (List (Option Nat))} (hblock : blockIndex[id >>> scalarBlockBits]? = some block)
    (id' used' allocated' : Nat) :
    get id' (.blocks (blockIndex.set (id >>> scalarBlockBits)
      (some ((block.getD (List.replicate scalarBlockLen none)).set (id &&& (scalarBlockLen - 1))
        (some type)))) used' allocated') =
      if id' = id then some type else get id' (.blocks blockIndex used allocated) := by
  have hslots : (block.getD (List.replicate scalarBlockLen none)).length = scalarBlockLen := by
    cases block with
    | none => exact List.length_replicate
    | some slots => exact hlength slots (List.mem_of_getElem? hblock)
  have hoffset : id &&& (scalarBlockLen - 1) < scalarBlockLen := by
    rw [(slot_eq id).2]
    exact Nat.mod_lt _ scalarBlockLen_pos
  have hindex := (List.getElem?_eq_some_iff.1 hblock).1
  unfold get
  dsimp only
  rw [List.getElem?_set]
  by_cases hsame : id >>> scalarBlockBits = id' >>> scalarBlockBits
  · rw [if_pos hsame, if_pos hindex, ← hsame, hblock]
    show (((block.getD _).set _ _)[id' &&& (scalarBlockLen - 1)]?).join = _
    rw [List.getElem?_set, hslots]
    by_cases heq : id' = id
    · subst heq
      rw [if_pos rfl, if_pos hoffset, if_pos rfl]
      rfl
    · have hne : id &&& (scalarBlockLen - 1) ≠ id' &&& (scalarBlockLen - 1) := by
        intro hslot
        refine heq ?_
        rw [← join_slot id, ← join_slot id', hsame, hslot]
      rw [if_neg hne, if_neg heq]
      cases block with
      | some slots => rfl
      | none =>
        rw [Option.getD_none, List.getElem?_replicate]
        split <;> rfl
  · have heq : id' ≠ id := fun heq => hsame (heq ▸ rfl)
    rw [if_neg hsame, if_neg heq]

/-- The blocks with a slot that is set. -/
theorem set_sound (type : Nat)
    (hlength : ∀ slots, some slots ∈ blockIndex → slots.length = scalarBlockLen)
    (hcover : maxId >>> scalarBlockBits < blockIndex.length) {block : Option (List (Option Nat))}
    (hblock : blockIndex[id >>> scalarBlockBits]? = some block) (used' allocated' : Nat) :
    Sound maxId (.blocks (blockIndex.set (id >>> scalarBlockBits)
      (some ((block.getD (List.replicate scalarBlockLen none)).set (id &&& (scalarBlockLen - 1))
        (some type)))) used' allocated') := by
  refine .blocks (fun slots hslots => ?_) (hcover.trans_eq List.length_set.symm)
  rcases List.mem_or_eq_of_mem_set hslots with hslots | hslots
  · exact hlength slots hslots
  · cases hslots
    rw [List.length_set]
    cases block with
    | none => exact List.length_replicate
    | some slots => exact hlength slots (List.mem_of_getElem? hblock)

/-- A source ID that is inserted has its type, and the others keep theirs. -/
theorem Sound.insert (h : table.Sound maxId) (hid : id ≤ maxId) (type : Nat) :
    (table.insert id type).Sound maxId ∧
      ∀ id', (table.insert id type).get id' = if id' = id then some type else table.get id' := by
  cases h with
  | sparse hnodup =>
    next entries =>
    have hrest : ((entries.filter fun entry => entry.1 != id).map Prod.fst).Nodup :=
      hnodup.sublist (List.filter_sublist.map _)
    refine ⟨.sparse (List.nodup_cons.2 ⟨fun hmem => ?_, hrest⟩), fun id' => ?_⟩
    · obtain ⟨entry, hentry, heq⟩ := List.mem_map.1 hmem
      exact bne_iff_ne.1 (List.mem_filter.1 hentry).2 heq
    · show ((id, type) :: _).lookup id' = _
      by_cases heq : id' = id
      · rw [if_pos heq, heq, List.lookup_cons_self]
      · rw [if_neg heq, List.lookup_cons, beq_eq_false_iff_ne.2 heq]
        refine Option.ext fun type' => ?_
        show _ ↔ entries.lookup id' = some type'
        rw [← mem_iff_lookup hnodup, ← mem_iff_lookup hrest, List.mem_filter]
        exact ⟨And.left, fun hmem => ⟨hmem, bne_iff_ne.2 heq⟩⟩
  | blocks hlength hcover =>
    next blockIndex used allocated =>
    have hindex : id >>> scalarBlockBits < blockIndex.length := by
      rw [(slot_eq _).1] at hcover ⊢
      exact (Nat.div_le_div_right hid).trans_lt hcover
    obtain ⟨block, hblock⟩ : ∃ block, blockIndex[id >>> scalarBlockBits]? = some block :=
      ⟨_, List.getElem?_eq_getElem hindex⟩
    have hset := set_sound type hlength hcover hblock
    -- Whether the table moves to a map after this makes no difference.
    have hmoved : ∀ (used' allocated' : Nat) (p : Prop) [Decidable p] (moved : ScalarTable),
        moved = .blocks (blockIndex.set (id >>> scalarBlockBits)
          (some ((block.getD (List.replicate scalarBlockLen none)).set (id &&& (scalarBlockLen - 1))
            (some type)))) used' allocated' →
        (if p then moved.switchToSparse else moved).Sound maxId ∧
          ∀ id', (if p then moved.switchToSparse else moved).get id' =
            if id' = id then some type else get id' (.blocks blockIndex used allocated) := by
      rintro used' allocated' p _ moved rfl
      split
      · obtain ⟨hsound, hget⟩ := (hset used' allocated').switchToSparse
        exact ⟨hsound, fun id' => (hget id').trans (get_set hlength hblock id' _ _)⟩
      · exact ⟨hset _ _, fun id' => get_set hlength hblock id' _ _⟩
    unfold ScalarTable.insert
    dsimp only
    rw [hblock]
    exact hmoved _ _ _ _ rfl

/-! ## The active table -/

/-- The active table has the entries of the table. -/
theorem Sound.mem_intoActive (h : table.Sound maxId) (t : Types) :
    (id, type) ∈ table.intoActive t ↔ ∃ type', table.get id = some type' ∧
    t.effective type' = type := by
  have hmap : (id, type) ∈ (table.entries.map fun entry => (entry.1, t.effective entry.2)) ↔
      ∃ type', table.get id = some type' ∧ t.effective type' = type := by
    rw [List.mem_map]
    constructor
    · rintro ⟨⟨id', type'⟩, hmem, heq⟩
      cases heq
      exact ⟨type', h.mem_entries.1 hmem, rfl⟩
    · rintro ⟨type', hget, rfl⟩
      exact ⟨(id, type'), h.mem_entries.2 hget, rfl⟩
  rw [← hmap]
  cases table with
  | blocks => exact Iff.rfl
  | sparse table => exact List.mem_mergeSort

/-- The active table is in the order of the source IDs. -/
theorem Sound.intoActive_sorted (h : table.Sound maxId) (t : Types) :
    (table.intoActive t).Pairwise fun a b => a.1 < b.1 := by
  cases h with
  | blocks hlength hcover => exact List.pairwise_map.2 ((taken_sorted hlength).imp fun hlt => hlt)
  | sparse hnodup =>
    next entries =>
    have hle : (intoActive t (.sparse entries)).Pairwise fun a b => decide (a.1 ≤ b.1) = true :=
      List.pairwise_mergeSort (fun a b c hab hbc => decide_eq_true
        ((of_decide_eq_true hab).trans (of_decide_eq_true hbc)))
        (fun a b => by
          rw [Bool.or_eq_true, decide_eq_true_eq, decide_eq_true_eq]
          exact Nat.le_total _ _) _
    have hne : (intoActive t (.sparse entries)).Pairwise fun a b => a.1 ≠ b.1 := by
      have hperm : ((intoActive t (.sparse entries)).map Prod.fst).Perm (entries.map Prod.fst) := by
        have := (List.mergeSort_perm (entries.map fun entry => (entry.1, t.effective entry.2))
          fun a b => a.1 ≤ b.1).map Prod.fst
        rwa [List.map_map] at this
      exact List.pairwise_map.1 (hperm.nodup_iff.2 hnodup)
    exact hle.imp₂ (fun _ _ hle hne => Nat.lt_of_le_of_ne (of_decide_eq_true hle) hne) hne

end

end ScalarTable

end Ondas.Ghw
