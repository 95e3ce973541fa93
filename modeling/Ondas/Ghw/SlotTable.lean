import Ondas.Ghw.Layout
import Ondas.Ghw.ScalarTable

/-!
# The scalar table as it is stored

`ScalarTable` has slots that are free or taken. Stored, a slot is a type, and `usize::MAX` stands
for a free one; a source ID that is put together from a block and an offset is cut to 32 bits.
`SlotTable` is this table, and `SlotTable.view` reads it as a `ScalarTable`.

The table is a finite map in either form and when it moves from blocks to the map (`inserted_last`):
it gives the type of the last insertion, and the active table lists the source IDs in their order.
-/

namespace Ondas.Ghw

open Library Wire

/-- `usize::MAX`, which no type is and which a free slot has. -/
def freeSlot : Nat := 2 ^ 64 - 1

/-- `ScalarTable`, with the slots as they are stored. -/
inductive SlotTable where
  | blocks (blockIndex : List (Option (List Nat))) (used allocated : Nat)
  | sparse (table : List (Nat × Nat))
  deriving DecidableEq, Repr

namespace SlotTable

/-! ## The operations -/

/-- `ScalarTable::new`. -/
def new (limit : Nat) (wire : Wire) : SlotTable :=
  let blocks := (limit + scalarBlockLen) / scalarBlockLen
  if blocks * 24 ≤ scalarBlockIndexBytes ∧ blocks ≤ wire.left then
    .blocks (List.replicate blocks none) 0 0
  else .sparse []

/-- `ScalarTable::get`. -/
def get (id : Nat) : SlotTable → Option Nat
  | .blocks blockIndex _ _ => do
    let block ← blockIndex[id >>> scalarBlockBits]?
    let slots ← block
    let type ← slots[id &&& (scalarBlockLen - 1)]?
    if type = freeSlot then none else some type
  | .sparse table => table.lookup id

/-- `HashMap::insert`. -/
def mapInsert (table : List (Nat × Nat)) (entry : Nat × Nat) : List (Nat × Nat) :=
  entry :: table.filter fun other => other.1 != entry.1

/-- The slots that are not free, in the order of the loops over the blocks, under their source
IDs. -/
def storedSlots (blockIndex : List (Option (List Nat))) : List (Nat × Nat) :=
  blockIndex.zipIdx.flatMap fun (block, index) =>
    (block.getD []).zipIdx.filterMap fun (type, offset) =>
      if type = freeSlot then none
      else some (((index <<< scalarBlockBits) ||| offset) % 2 ^ 32, type)

/-- `ScalarTable::switch_to_sparse`. -/
def switchToSparse : SlotTable → SlotTable
  | .blocks blockIndex _ _ => .sparse ((storedSlots blockIndex).foldl mapInsert [])
  | .sparse table => .sparse table

/-- `ScalarTable::insert`. -/
def insert (id type : Nat) : SlotTable → SlotTable
  | .sparse table => .sparse (mapInsert table (id, type))
  | .blocks blockIndex used allocated =>
    match blockIndex[id >>> scalarBlockBits]? with
    | none => .blocks blockIndex used allocated
    | some block =>
      let allocated := if block.isNone then allocated + 1 else allocated
      let slots := block.getD (List.replicate scalarBlockLen freeSlot)
      let offset := id &&& (scalarBlockLen - 1)
      let used := if (slots[offset]?).getD freeSlot = freeSlot then used + 1 else used
      let stored := .blocks (blockIndex.set (id >>> scalarBlockBits) (some (slots.set offset type)))
        used allocated
      if scalarBlockSample ≤ allocated ∧ used * scalarBlockDensity < allocated * scalarBlockLen then
        switchToSparse stored
      else stored

/-- `ScalarTable::into_active`. -/
def intoActive (t : Types) : SlotTable → List (Nat × Nat)
  | .blocks blockIndex _ _ => (storedSlots blockIndex).map fun entry =>
    (entry.1, t.effective entry.2)
  | .sparse table =>
    (table.map fun entry => (entry.1, t.effective entry.2)).mergeSort fun a b => a.1 ≤ b.1

/-! ## The view -/

/-- What a slot holds. -/
def slotView (type : Nat) : Option Nat := if type = freeSlot then none else some type

/-- The blocks without the value for free slots. -/
def blockView (blockIndex : List (Option (List Nat))) : List (Option (List (Option Nat))) :=
  blockIndex.map (Option.map (List.map slotView))

/-- The table that is stored. -/
def view : SlotTable → ScalarTable
  | .blocks blockIndex used allocated => .blocks (blockView blockIndex) used allocated
  | .sparse table => .sparse table

section
variable {id type limit : Nat} {table : SlotTable} {blockIndex : List (Option (List Nat))}

/-- A lookup in a table is one in what the table holds. -/
theorem get_view (id : Nat) (table : SlotTable) : table.get id = table.view.get id := by
  cases table with
  | sparse => rfl
  | blocks blockIndex used allocated =>
    show (blockIndex[id >>> scalarBlockBits]?).bind (fun block => block.bind fun slots =>
      (slots[id &&& (scalarBlockLen - 1)]?).bind slotView) =
        ((blockView blockIndex)[id >>> scalarBlockBits]?).join.bind _
    unfold blockView
    rw [List.getElem?_map]
    cases blockIndex[id >>> scalarBlockBits]? with
    | none => rfl
    | some block =>
      cases block with
      | none => rfl
      | some slots =>
        show (slots[_]?).bind slotView = ((slots.map slotView)[_]?).join
        rw [List.getElem?_map]
        cases slots[id &&& (scalarBlockLen - 1)]? <;> rfl

/-- The source IDs of the slots are cut to 32 bits. -/
theorem storedSlots_eq : storedSlots blockIndex =
    (ScalarTable.taken (blockView blockIndex)).map fun entry => (entry.1 % 2 ^ 32, entry.2) := by
  unfold storedSlots ScalarTable.taken blockView
  rw [List.zipIdx_map, List.flatMap_map, List.map_flatMap]
  refine List.flatMap_congr fun entry _ => ?_
  obtain ⟨block, index⟩ := entry
  have hslots : ((block.map (List.map slotView)).getD []).zipIdx =
      (block.getD []).zipIdx.map (Prod.map slotView id) := by
    rw [← List.zipIdx_map]
    cases block <;> rfl
  dsimp only [Prod.map]
  rw [hslots, List.filterMap_map, List.map_filterMap]
  refine List.filterMap_congr fun slot _ => ?_
  unfold slotView
  dsimp only [Function.comp, Prod.map, id]
  split <;> rfl

/-- The source IDs of a table are of 32 bits. -/
def Narrow (table : ScalarTable) : Prop := ∀ id type, table.get id = some type → id < 2 ^ 32

/-- No source ID that a table has is cut. -/
theorem storedSlots_taken {used allocated : Nat}
    (hsound : ScalarTable.Sound limit (.blocks (blockView blockIndex) used allocated))
    (hnarrow : Narrow (.blocks (blockView blockIndex) used allocated)) :
    storedSlots blockIndex = ScalarTable.taken (blockView blockIndex) := by
  rw [storedSlots_eq]
  refine (List.map_congr_left fun entry hentry => ?_).trans (List.map_id _)
  rw [Nat.mod_eq_of_lt (hnarrow entry.1 entry.2 (hsound.mem_entries.1 hentry))]
  rfl

/-! ## One insertion -/

/-- A map that is filled with entries of distinct source IDs has these entries. -/
theorem foldl_mapInsert (entries : List (Nat × Nat)) : ∀ table : List (Nat × Nat),
    (entries.map Prod.fst).Nodup → (∀ entry ∈ entries, ∀ other ∈ table, other.1 ≠ entry.1) →
    entries.foldl mapInsert table = entries.reverse ++ table := by
  induction entries with
  | nil => exact fun _ _ _ => rfl
  | cons entry entries ih =>
    intro table hnodup hfresh
    obtain ⟨hentry, hnodup'⟩ := List.nodup_cons.1 hnodup
    have hinsert : mapInsert table entry = entry :: table :=
      congrArg _ (List.filter_eq_self.2 fun other hother =>
        bne_iff_ne.2 (hfresh entry (.head _) other hother))
    rw [List.foldl_cons, hinsert, ih _ hnodup', List.reverse_cons, List.append_assoc]
    · rfl
    · intro e he other hother
      rcases List.mem_cons.1 hother with rfl | hother
      · exact fun heq => hentry (List.mem_map.2 ⟨e, he, heq.symm⟩)
      · exact hfresh e (.tail _ he) other hother

/-- A table that moves to the map gives the same types. -/
theorem switchToSparse_view (hsound : table.view.Sound limit) (hnarrow : Narrow table.view) :
    table.switchToSparse.view.Sound limit ∧
      ∀ id, table.switchToSparse.view.get id = table.view.get id := by
  cases table with
  | sparse => exact ⟨hsound, fun _ => rfl⟩
  | blocks blockIndex used allocated =>
    cases hsound with
    | blocks hlength hcover =>
      have hnodup := ScalarTable.nodup_of_sorted (ScalarTable.taken_sorted hlength)
      have hfold : (storedSlots blockIndex).foldl mapInsert [] =
          (ScalarTable.taken (blockView blockIndex)).reverse := by
        rw [storedSlots_taken (.blocks hlength hcover) hnarrow,
          foldl_mapInsert _ _ hnodup (fun _ _ _ hother => absurd hother List.not_mem_nil),
          List.append_nil]
      have hnodup' : ((ScalarTable.taken (blockView blockIndex)).reverse.map Prod.fst).Nodup := by
        rw [List.map_reverse]
        exact List.nodup_reverse.2 hnodup
      unfold switchToSparse view
      dsimp only
      rw [hfold]
      refine ⟨.sparse hnodup', fun id => Option.ext fun type => ?_⟩
      rw [← ScalarTable.mem_taken hlength, ← List.mem_reverse]
      exact (ScalarTable.mem_iff_lookup hnodup').symm

/-- Both tables move to a map after an insertion, or none does. -/
theorem insert_view (hsound : table.view.Sound limit) (hid : id ≤ limit) (htype : type < freeSlot) :
    ∃ (stored : SlotTable) (moves : Prop) (_ : Decidable moves), stored.view.Sound limit ∧
      table.insert id type = (if moves then stored.switchToSparse else stored) ∧
        table.view.insert id type =
          if moves then stored.view.switchToSparse else stored.view := by
  cases table with
  | sparse entries =>
    exact ⟨.sparse (mapInsert entries (id, type)), False, inferInstance,
      (hsound.insert hid type).1, rfl, rfl⟩
  | blocks blockIndex used allocated =>
    unfold insert view ScalarTable.insert
    dsimp only
    have hblock : (blockView blockIndex)[id >>> scalarBlockBits]? =
        (blockIndex[id >>> scalarBlockBits]?).map (Option.map (List.map slotView)) :=
        List.getElem?_map
    rw [hblock]
    cases hget : blockIndex[id >>> scalarBlockBits]? with
    | none => exact ⟨.blocks blockIndex used allocated, False, inferInstance, hsound, rfl, rfl⟩
    | some block =>
      rw [hget, Option.map_some] at hblock
      have hfresh : (block.map (List.map slotView)).isNone = block.isNone := Option.isNone_map
      have hslots : (block.map (List.map slotView)).getD (List.replicate scalarBlockLen none) =
          (block.getD (List.replicate scalarBlockLen freeSlot)).map slotView := by
        cases block with
        | none =>
          rw [Option.map_none, Option.getD_none, Option.getD_none, List.map_replicate]
          rfl
        | some slots => rfl
      have hused : ∀ slots : List Nat,
          ((slots.map slotView)[id &&& (scalarBlockLen - 1)]?).join.isNone =
            decide ((slots[id &&& (scalarBlockLen - 1)]?).getD freeSlot = freeSlot) := by
        intro slots
        rw [List.getElem?_map]
        cases slots[id &&& (scalarBlockLen - 1)]? with
        | none => rfl
        | some type' =>
          show (slotView type').isNone = decide (type' = freeSlot)
          unfold slotView
          by_cases hfree : type' = freeSlot
          · rw [if_pos hfree, decide_eq_true hfree]
            rfl
          · rw [if_neg hfree, decide_eq_false hfree]
            rfl
      have htaken : slotView type = some type := if_neg (Nat.ne_of_lt htype)
      have hset : ∀ slots : List Nat, (blockView blockIndex).set (id >>> scalarBlockBits)
          (some ((slots.map slotView).set (id &&& (scalarBlockLen - 1)) (some type))) =
          blockView (blockIndex.set (id >>> scalarBlockBits)
            (some (slots.set (id &&& (scalarBlockLen - 1)) type))) := by
        intro slots
        unfold blockView
        rw [List.map_set, Option.map_some, List.map_set, htaken]
      have hstored : ∀ used' allocated', (blocks (blockIndex.set (id >>> scalarBlockBits)
          (some ((block.getD (List.replicate scalarBlockLen freeSlot)).set
            (id &&& (scalarBlockLen - 1)) type))) used' allocated').view.Sound limit := by
        intro used' allocated'
        cases hsound with
        | blocks hlength hcover =>
          have hsound' := ScalarTable.set_sound type hlength hcover hblock used' allocated'
          rwa [hslots, hset] at hsound'
      dsimp only [Option.map_some]
      rw [hfresh, hslots, hused, hset]
      simp only [decide_eq_true_eq]
      exact ⟨.blocks _ _ _, _, _, hstored _ _, rfl, rfl⟩

/-! ## Any insertions -/

/-- A table before its first insertion, in either form. -/
inductive Initial (limit : Nat) : SlotTable → Prop
  | blocks : Initial limit
      (.blocks (List.replicate ((limit + scalarBlockLen) / scalarBlockLen) none) 0 0)
  | sparse : Initial limit (.sparse [])

/-- A new table has one of these forms. -/
theorem new_initial (limit : Nat) (wire : Wire) : Initial limit (new limit wire) := by
  unfold new
  dsimp only
  split
  · exact .blocks
  · exact .sparse

/-- A table after insertions. -/
def insertAll (table : SlotTable) (inserts : List (Nat × Nat)) : SlotTable :=
  inserts.foldl (fun table entry => table.insert entry.1 entry.2) table

/-- The type of the last insertion of a source ID. -/
def lastInsert (inserts : List (Nat × Nat)) (id : Nat) : Option Nat := inserts.reverse.lookup id

/-- The last insertion for an ID is the appended one when it has this ID. -/
theorem lastInsert_append (inserts : List (Nat × Nat)) (entry : Nat × Nat) (id : Nat) :
    lastInsert (inserts ++ [entry]) id =
      if id = entry.1 then some entry.2 else lastInsert inserts id := by
  unfold lastInsert
  rw [List.reverse_append]
  show (entry :: inserts.reverse).lookup id = _
  rw [List.lookup_cons]
  by_cases heq : id = entry.1
  · rw [if_pos heq, beq_iff_eq.2 heq]
  · rw [if_neg heq, beq_eq_false_iff_ne.2 heq]

/-- A table that has the last insertion of every source ID. -/
structure Holds (limit : Nat) (inserts : List (Nat × Nat)) (table : SlotTable) : Prop where
  sound : table.view.Sound limit
  get : ∀ id, table.view.get id = lastInsert inserts id

/-- A new table holds what was inserted: nothing. -/
theorem Initial.holds (h : Initial limit table) : Holds limit [] table := by
  cases h with
  | sparse => exact ⟨.sparse List.nodup_nil, fun _ => rfl⟩
  | blocks =>
    refine ⟨.blocks (fun slots hslots => ?_) ?_, fun id => ?_⟩
    · unfold blockView at hslots
      rw [List.map_replicate] at hslots
      cases List.eq_of_mem_replicate hslots
    · unfold blockView
      rw [List.length_map, List.length_replicate, (ScalarTable.slot_eq limit).1,
        Nat.add_div_right _ ScalarTable.scalarBlockLen_pos]
      exact Nat.lt_succ_self _
    · rw [← get_view]
      unfold SlotTable.get
      dsimp only
      rw [List.getElem?_replicate]
      split <;> rfl

/-- The source IDs of a table are those of its insertions. -/
theorem Holds.narrow {inserts : List (Nat × Nat)} (h : Holds limit inserts table)
    (hlimit : limit < 2 ^ 32) (hids : ∀ entry ∈ inserts, entry.1 ≤ limit) : Narrow table.view := by
  intro id type hget
  rw [h.get] at hget
  obtain ⟨before, after, heq, -⟩ := List.lookup_eq_some_iff.1 hget
  have hmem : (id, type) ∈ inserts := by
    rw [← List.mem_reverse, heq]
    exact List.mem_append_right _ (.head _)
  exact (hids _ hmem).trans_lt hlimit

/-- One more insertion. -/
theorem Holds.insert {inserts : List (Nat × Nat)} (h : Holds limit inserts table)
    (hlimit : limit < 2 ^ 32) (hids : ∀ entry ∈ inserts, entry.1 ≤ limit) (hid : id ≤ limit)
    (htype : type < freeSlot) : Holds limit (inserts ++ [(id, type)]) (table.insert id type) := by
  obtain ⟨stored, moves, _, hstored, hinsert, hview⟩ := insert_view h.sound hid htype
  -- The blocks have the insertion whether or not the table moves then.
  have hget : ∀ id', stored.view.get id' = lastInsert (inserts ++ [(id, type)]) id' := by
    intro id'
    rw [lastInsert_append, ← h.get, ← (h.sound.insert hid type).2, hview]
    split
    · exact (hstored.switchToSparse.2 id').symm
    · rfl
  have hholds : Holds limit (inserts ++ [(id, type)]) stored := ⟨hstored, hget⟩
  rw [hinsert]
  split
  · have hids' : ∀ entry ∈ inserts ++ [(id, type)], entry.1 ≤ limit :=
      List.forall_mem_append.2 ⟨hids, List.forall_mem_singleton.2 hid⟩
    obtain ⟨hsound, hsame⟩ := switchToSparse_view hstored (hholds.narrow hlimit hids')
    exact ⟨hsound, fun id' => (hsame id').trans (hget id')⟩
  · exact hholds

/-- A table after any insertions. -/
theorem insertAll_holds (hlimit : limit < 2 ^ 32) (hinitial : Initial limit table)
    (inserts : List (Nat × Nat)) (hids : ∀ entry ∈ inserts, entry.1 ≤ limit)
    (htypes : ∀ entry ∈ inserts, entry.2 < freeSlot) :
    Holds limit inserts (table.insertAll inserts) := by
  induction inserts using List.reverseRecOn with
  | nil => exact hinitial.holds
  | append_singleton inserts entry ih =>
    obtain ⟨hids, hid⟩ := List.forall_mem_append.1 hids
    obtain ⟨htypes, htype⟩ := List.forall_mem_append.1 htypes
    unfold insertAll
    rw [List.foldl_append]
    exact (ih hids htypes).insert hlimit hids (hid entry (.head _)) (htype entry (.head _))

/-- The active table of the table that is stored. -/
theorem intoActive_view (hsound : table.view.Sound limit) (hnarrow : Narrow table.view)
    (t : Types) :
    table.intoActive t = table.view.intoActive t := by
  cases table with
  | sparse => rfl
  | blocks blockIndex used allocated =>
    unfold intoActive view ScalarTable.intoActive
    dsimp only
    rw [storedSlots_taken hsound hnarrow]

/-- **The scalar table is a finite map.** For every limit and in either form, a table after any
insertions of source IDs up to the limit gives the type of the last insertion of each source ID,
also when it moved to the map in between. Its active table has the source IDs that were inserted,
each once and in ascending order, with the type that their last type stands for, which is no
alias. -/
theorem inserted_last (hlimit : limit < 2 ^ 32) (hinitial : Initial limit table)
    (inserts : List (Nat × Nat)) (hids : ∀ entry ∈ inserts, entry.1 ≤ limit)
    (htypes : ∀ entry ∈ inserts, entry.2 < freeSlot) (t : Types) :
    (∀ id, (table.insertAll inserts).get id = lastInsert inserts id) ∧
      (∀ id type, (id, type) ∈ (table.insertAll inserts).intoActive t ↔
        (lastInsert inserts id).map t.effective = some type) ∧
      ((table.insertAll inserts).intoActive t).Pairwise (fun a b => a.1 < b.1) ∧
      (t.Sound → ∀ entry ∈ (table.insertAll inserts).intoActive t, ∀ base range,
        t.shape? entry.2 ≠ some (.alias base range)) := by
  have hholds := insertAll_holds hlimit hinitial inserts hids htypes
  have hactive := intoActive_view hholds.sound (hholds.narrow hlimit hids) t
  have hmem : ∀ id type, (id, type) ∈ (table.insertAll inserts).intoActive t ↔
      (lastInsert inserts id).map t.effective = some type := by
    intro id type
    rw [hactive, hholds.sound.mem_intoActive, hholds.get, Option.map_eq_some_iff]
  refine ⟨fun id => (get_view _ _).trans (hholds.get id), hmem, ?_, ?_⟩
  · rw [hactive]
    exact hholds.sound.intoActive_sorted t
  · rintro ht ⟨id, type⟩ hentry
    obtain ⟨last, -, rfl⟩ := Option.map_eq_some_iff.1 ((hmem id type).1 hentry)
    exact ht.effective_not_alias last

/-- Insertions into four blocks of five, after which the table is a map. -/
theorem inserted_last_scattered : ((blocks (List.replicate 5 none) 0 0).insertAll
    [(1, 3), (1025, 4), (2049, 5), (1, 6), (3073, 7), (1025, 8)]).get 1025 = some 8 :=
  (inserted_last (by decide : 5000 < 2 ^ 32) .blocks
    [(1, 3), (1025, 4), (2049, 5), (1, 6), (3073, 7), (1025, 8)] (by decide) (by decide)
    ⟨[], [], []⟩).1 1025

end

end SlotTable

end Ondas.Ghw
