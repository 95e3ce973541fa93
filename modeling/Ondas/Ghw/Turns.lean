import Ondas.Ghw.Cursors

/-!
# The turns of an indexed read

A turn of `Index.read` reads one list. Before it, all cursors stand at the first positions that
their groups have in the lists from a frame on (`Turning`). A list without records of the groups is
passed over without a turn (`Turning.quiet`). For any other one the cursors in front of the heap are
those of the groups with records in it, in order, so that their scans hand over the selected records
of the list in the order of the walk (`Turning.scans`), and stand at the lists after it when they
were moved on (`Turning.advances`).

So the turns recite the lists, by induction on them (`Turning.drive`): the selected records
(`recited`), where lists of one time end together.
-/

namespace Ondas.Ghw

open Library Wire

namespace Index

/-! ## Turns -/

section
variable {checked : Bool} {x : Index} {ranks groups : List Nat} {t : Types} {active : Active}
  {wire : Wire} {stop group n slot : Nat} {list : SourceList} {lists : List SourceList}
  {r : Reading}

/-- The positions of a group in lists whose frames are numbered from one on. -/
def streamOf (group n : Nat) (lists : List SourceList) : List (Nat × Nat × Nat) :=
  ((lists.filter fun list => !list.records.isEmpty).zipIdx n).filterMap fun (list, frame) =>
    positionOf group frame list.records

/-- The number of the frame after a list. -/
def after (n : Nat) (list : SourceList) : Nat := if list.records.isEmpty then n else n + 1

/-- The position in the first list comes first. -/
theorem streamOf_cons (group n : Nat) (list : SourceList) (lists : List SourceList) :
    streamOf group n (list :: lists) =
      (positionOf group n list.records).toList ++ streamOf group (after n list) lists := by
  unfold streamOf after
  rw [List.filter_cons]
  cases hrecords : list.records with
  | nil => rfl
  | cons e records =>
    show List.filterMap _ ((list :: _).zipIdx n) = _
    rw [List.zipIdx_cons, List.filterMap_cons]
    dsimp only
    rw [hrecords]
    cases positionOf group n (e :: records) <;> rfl

/-- Frames of further lists have higher numbers. -/
theorem le_streamOf : ∀ {lists : List SourceList} {n : Nat}, ∀ p ∈ streamOf group n lists,
    n ≤ p.1
  | [], _ => nofun
  | list :: lists, n => fun p hp => by
    rw [streamOf_cons] at hp
    rcases List.mem_append.1 hp with hp | hp
    · exact (mem_positionOf (Option.mem_toList.1 hp)).1.ge
    · have hle := le_streamOf p hp
      unfold after at hle
      split at hle <;> omega

/-- A group has a position in a list that has records of it. -/
theorem positionOf_isSome {records : List ScalarEvent} :
    (positionOf group n records).isSome = true ↔ ∃ e ∈ records, e.rank / ranksPerGroup = group := by
  unfold positionOf
  rw [Option.isSome_map, List.find?_isSome]
  exact exists_congr fun e => and_congr_right fun _ => beq_iff_eq

/-- A state of a query whose cursors stand at the first ones of some lists. -/
structure Turning (checked : Bool) (x : Index) (ranks groups : List Nat) (wire : Wire) (n : Nat)
    (lists : List SourceList) (r : Reading) : Prop where
  standing : Standing checked x ranks groups (fun group => streamOf group n lists) [] r.cursors
    r.heap
  frames : x.frames.items.drop n = framesOf lists
  place : r.wire.place = wire.place

/-- No entry of the heap is before the lists. -/
theorem Turning.le_frame (h : Turning checked x ranks groups wire n lists r) :
    ∀ entry ∈ r.heap, n ≤ entry.1 := by
  rintro ⟨frame, slot⟩ hentry
  have hs := List.getElem?_eq_getElem (h.standing.slots _ hentry)
  obtain ⟨p, hp, rfl⟩ := ((h.standing.placed slot _ List.not_mem_nil hs).entries frame).1 hentry
  exact le_streamOf p (List.mem_of_mem_head? hp)

/-- A cursor that does not stand at a list has no position there. -/
theorem Turning.resting (h : Turning checked x ranks groups wire n (list :: lists) r) {s : Selected}
    (hs : r.cursors[slot]? = some s) (hslot : (n, slot) ∉ r.heap) :
    positionOf s.cursor.group n list.records = none := by
  have hentries := (h.standing.placed slot s List.not_mem_nil hs).entries n
  rw [streamOf_cons] at hentries
  cases hposition : positionOf s.cursor.group n list.records with
  | none => rfl
  | some p =>
    rw [hposition] at hentries
    exact absurd (hentries.2 ⟨p, rfl, (mem_positionOf hposition).1.symm⟩) hslot

/-- A cursor that stands at a list has its position there, and gives those in the lists after it. -/
theorem Turning.pending (h : Turning checked x ranks groups wire n (list :: lists) r)
    (hlist : list.records.isEmpty = false) {s : Selected} (hs : r.cursors[slot]? = some s)
    (hslot : (n, slot) ∈ r.heap) :
    positionOf s.cursor.group n list.records = some (n, s.cursor.offset, s.cursor.first) ∧
      Gives checked x s.cursor (streamOf s.cursor.group (after n list) lists) ∧
      ∀ frame, (frame, slot) ∈ r.heap → frame = n := by
  obtain ⟨hentries, hgives⟩ := h.standing.placed slot s List.not_mem_nil hs
  rw [streamOf_cons] at hentries hgives
  obtain ⟨p, hp, hn⟩ := (hentries n).1 hslot
  cases hposition : positionOf s.cursor.group n list.records with
  | none =>
    rw [hposition] at hp
    have hle := le_streamOf p (List.mem_of_mem_head? hp)
    rw [after, if_neg (by rw [hlist]; exact Bool.false_ne_true)] at hle
    omega
  | some q =>
    rw [hposition] at hentries hgives
    obtain ⟨hq, hgives'⟩ := hgives q _ rfl
    have hframe : q.1 = n := (mem_positionOf hposition).1
    refine ⟨?_, hgives', fun frame hframe' => ?_⟩
    · rw [← hq, ← hframe, ← hq]
    · obtain ⟨p', hp', rfl⟩ := (hentries frame).1 hframe'
      cases hp'
      exact hframe

/-- The frames of the lists after one. -/
theorem drop_after {frames : List Frame} (h : frames.drop n = framesOf (list :: lists)) :
    frames.drop (after n list) = framesOf lists := by
  unfold framesOf at h ⊢
  unfold after
  rw [List.filterMap_cons] at h
  cases hempty : list.records.isEmpty with
  | true =>
    rw [hempty] at h
    exact h
  | false =>
    rw [hempty] at h
    exact List.drop_drop.symm.trans (congrArg (List.drop 1) h)

/-- A list without records of the groups is passed over, and the state stands at the next one. -/
theorem Turning.quiet (h : Turning checked x ranks groups wire n (list :: lists) r)
    (hquiet : ∀ e ∈ list.records, e.rank / ranksPerGroup ∉ groups) :
    Turning checked x ranks groups wire (after n list) lists r := by
  have hstreams : ∀ s ∈ r.cursors, streamOf s.cursor.group n (list :: lists) =
      streamOf s.cursor.group (after n list) lists := by
    intro s hs
    have hnone : positionOf s.cursor.group n list.records = none := by
      refine Option.eq_none_iff_forall_ne_some.2 fun p hp => ?_
      obtain ⟨e, he, hgroup⟩ := positionOf_isSome.1 (Option.isSome_iff_exists.2 ⟨p, hp⟩)
      refine hquiet e he ?_
      rw [← h.standing.groups, hgroup]
      exact List.mem_map_of_mem hs
    rw [streamOf_cons, hnone]
    rfl
  refine ⟨{ h.standing with waiting := nofun, placed := fun slot s hslot hs => ?_ },
    drop_after h.frames, h.place⟩
  rw [← hstreams s (List.mem_of_getElem? hs)]
  exact h.standing.placed slot s hslot hs

/-- What the scans of some groups hand over is what is chosen of the groups, in order of the ranks.
-/
theorem chosen_groups {gs : List Nat} {records : List ScalarEvent} (hgs : gs.Pairwise (· < ·))
    (hrecords : records.Pairwise fun a b => a.rank < b.rank)
    (hall : ∀ e ∈ records, e.rank ∈ ranks → e.rank / ranksPerGroup ∈ gs) :
    (gs.flatMap fun group => records.filterMap (chosenIn ranks group)) =
      records.filterMap (chosen ranks) := by
  have hgroups : records.Pairwise fun a b => a.rank / ranksPerGroup ≤ b.rank / ranksPerGroup :=
    hrecords.imp fun hlt => group_mono hlt.le
  have hgroup : ∀ group, records.filterMap (chosenIn ranks group) =
      (records.filter fun e => decide (e.rank / ranksPerGroup = group)).filterMap
        (chosen ranks) := by
    intro group
    rw [List.filterMap_filter]
    exact List.filterMap_congr fun e _ => by simp only [chosenIn, decide_eq_true_eq]
  have hmap := congrArg (List.filterMap (chosen ranks)) (flatMap_filter_key hgroups hgs)
  rw [List.filterMap_flatMap, List.filterMap_filter] at hmap
  simp only [hgroup]
  rw [hmap]
  refine List.filterMap_congr fun e he => ?_
  by_cases hmem : e.rank ∈ ranks
  · rw [if_pos (decide_eq_true (hall e he hmem))]
  · unfold chosen
    rw [if_neg hmem, ite_self]

/-- **The scans of a turn hand over what is selected of a list**, group by group. -/
theorem scanAll_laid {offset ends : Nat} {cursors : List Selected}
    (hlaid : Laid t active wire list.time list.cyclic offset 0 list.records ends)
    (hsorted : ranks.Pairwise (· < ·)) (hcovers : ∀ s ∈ cursors, Covers ranks s) :
    ∀ (slots : List Nat) (w : Wire), (∀ slot ∈ slots, ∃ s, cursors[slot]? = some s ∧
      positionOf s.cursor.group n list.records = some (n, s.cursor.offset, s.cursor.first)) →
      w.place = wire.place → ∃ w',
        scanAll t active ⟨list.time, list.cyclic⟩ cursors slots w =
          ((slots.filterMap fun slot => cursors[slot]?.map fun s => s.cursor.group).flatMap
            fun group => list.records.filterMap (chosenIn ranks group), .ok (), w') ∧
        w'.place = wire.place
  | [], w, _, hw => ⟨w, rfl, hw⟩
  | slot :: slots, w, hslots, hw => by
    obtain ⟨s, hs, hposition⟩ := hslots slot (.head _)
    obtain ⟨w₁, hscan, hplace⟩ :=
      scan_laid hlaid hsorted (hcovers s (List.mem_of_getElem? hs)) hposition hw
    obtain ⟨w', hrest, hplace'⟩ := scanAll_laid hlaid hsorted hcovers slots w₁
      (fun slot hslot => hslots slot (.tail _ hslot)) hplace
    refine ⟨w', ?_, hplace'⟩
    unfold scanAll
    rw [hs]
    dsimp only
    rw [hscan]
    dsimp only
    rw [hrest, List.filterMap_cons, hs]
    rfl

/-- The slots of the heap whose entries are of a frame, before those of higher frames. -/
structure Front (n : Nat) (heap : List (Nat × Nat)) (pending : List Nat)
    (above : List (Nat × Nat)) : Prop where
  eq : heap = pending.map (n, ·) ++ above
  above : ∀ entry ∈ above, n < entry.1
  ascend : pending.Pairwise (· < ·)

/-- The cursors that stand at the first list are in front. -/
theorem Turning.front (h : Turning checked x ranks groups wire n lists r) :
    ∃ pending above, Front n r.heap pending above := by
  have hframes : r.heap.Pairwise fun a b => a.1 ≤ b.1 := h.standing.sorted.imp fun hsooner => by
    unfold Sooner at hsooner
    omega
  obtain ⟨below, equal, above, hparted⟩ := exists_parted hframes n
  have hnone : below = [] := List.eq_nil_iff_forall_not_mem.2 fun entry hentry =>
    absurd (hparted.below entry hentry)
      (h.le_frame entry (hparted.eq ▸ List.mem_append_left _ hentry)).not_gt
  subst hnone
  have hequal : (equal.map Prod.snd).map (n, ·) = equal := by
    rw [List.map_map]
    conv_rhs => rw [← List.map_id equal]
    refine List.map_congr_left fun entry hentry => ?_
    exact Prod.ext (hparted.equal entry hentry).symm rfl
  refine ⟨equal.map Prod.snd, above, by rw [hequal]; exact hparted.eq, hparted.above,
    List.pairwise_map.2 ?_⟩
  have hboth := h.standing.sorted.and h.standing.nodup
  rw [hparted.eq, List.nil_append] at hboth
  refine (List.pairwise_append.1 hboth).1.imp_of_mem fun {a b} ha hb hlt => ?_
  have hsame : a.1 = b.1 := (hparted.equal a ha).trans (hparted.equal b hb).symm
  refine lt_of_le_of_ne ?_ fun heq => hlt.2 (Prod.ext hsame heq)
  exact (hlt.1.resolve_left hsame.not_lt).2

section
variable {pending : List Nat} {above : List (Nat × Nat)}

/-- The entries of the frame. -/
theorem Front.mem (h : Front n r.heap pending above) : (n, slot) ∈ r.heap ↔ slot ∈ pending := by
  rw [h.eq, List.mem_append, List.mem_map]
  constructor
  · rintro (⟨slot', hmem, heq⟩ | hmem)
    · cases heq
      exact hmem
    · exact absurd (h.above _ hmem) (Nat.lt_irrefl _)
  · exact fun hmem => .inl ⟨slot, hmem, rfl⟩

/-- The turn for the slots in front. -/
theorem readStep_front {stored : Frame} (h : Front n r.heap pending above) (hpending : pending ≠ [])
    (hstored : x.frames.items[n]? = some stored) :
    (stop < stored.time →
      readStep checked x t active stop r = (closing r.current, .stop (.ok ()))) ∧
    (∀ events wire cursors heap, stored.time ≤ stop →
      scanAll t active stored r.cursors pending r.wire = (events, .ok (), wire) →
      advanceAll checked x pending r.cursors above = .ok (cursors, heap) →
      readStep checked x t active stop r =
        (closing (r.current.filter fun previous => decide (previous ≠ stored.time)) ++
          events.map Event.scalar, .next ⟨wire, cursors, heap, some stored.time⟩)) ∧
    ∀ events wire failure, stored.time ≤ stop →
      scanAll t active stored r.cursors pending r.wire = (events, .error failure, wire) →
      readStep checked x t active stop r =
        (closing (r.current.filter fun previous => decide (previous ≠ stored.time)) ++
          events.map Event.scalar, .stop (.error failure)) := by
  obtain ⟨slot, others, rfl⟩ := List.exists_cons_of_ne_nil hpending
  have heq : r.heap = (n, slot) :: (others.map (n, ·) ++ above) := h.eq
  have htake : (r.heap.takeWhile fun entry => decide (entry.1 = n)) =
      (slot :: others).map (n, ·) := by
    rw [h.eq]
    refine takeWhile_append (fun entry hentry => ?_)
      fun entry hentry => decide_eq_false (h.above entry hentry).ne'
    obtain ⟨slot', -, rfl⟩ := List.mem_map.1 hentry
    exact decide_eq_true rfl
  have hdrop : r.heap.drop (slot :: others).length = above := by
    rw [h.eq]
    exact List.drop_left' (List.length_map _)
  have hsnd : ((slot :: others).map (n, ·)).map Prod.snd = slot :: others := by
    rw [List.map_map]
    exact List.map_id _
  unfold readStep
  rw [heq] at htake hdrop ⊢
  dsimp only
  rw [hstored]
  dsimp only
  rw [htake, hsnd, hdrop]
  refine ⟨fun hpast => if_pos hpast, fun events wire cursors heap hstop hscan hadvance => ?_,
    fun events wire failure hstop hscan => ?_⟩
  · rw [if_neg hstop.not_gt, hscan]
    dsimp only
    rw [hadvance]
  · rw [if_neg hstop.not_gt, hscan]

end

section
variable {pending : List Nat} {above : List (Nat × Nat)}

/-- A cursor is in front when its group has records in the first list. -/
theorem Turning.mem_pending (h : Turning checked x ranks groups wire n (list :: lists) r)
    (hfront : Front n r.heap pending above) (hlist : list.records.isEmpty = false) {s : Selected}
    (hs : r.cursors[slot]? = some s) :
    slot ∈ pending ↔ ∃ e ∈ list.records, e.rank / ranksPerGroup = s.cursor.group := by
  rw [← hfront.mem, ← positionOf_isSome (n := n)]
  constructor
  · intro hslot
    rw [(h.pending hlist hs hslot).1]
    rfl
  · intro hsome
    by_contra hslot
    rw [h.resting hs hslot] at hsome
    cases hsome

/-- The scans of a turn. -/
theorem Turning.scans {offset ends : Nat}
    (h : Turning checked x ranks groups wire n (list :: lists) r)
    (hfront : Front n r.heap pending above) (hlist : list.records.isEmpty = false)
    (hlaid : Laid t active wire list.time list.cyclic offset 0 list.records ends)
    (hsorted : ranks.Pairwise (· < ·)) (hgroups : groups.Pairwise (· < ·))
    (hserved : ∀ e ∈ list.records, e.rank ∈ ranks → e.rank / ranksPerGroup ∈ groups) :
    ∃ w', scanAll t active ⟨list.time, list.cyclic⟩ r.cursors pending r.wire =
        (list.records.filterMap (chosen ranks), .ok (), w') ∧ w'.place = wire.place := by
  have hslots : ∀ slot ∈ pending, ∃ s, r.cursors[slot]? = some s := fun slot hslot =>
    ⟨_, List.getElem?_eq_getElem (h.standing.slots _ (hfront.mem.2 hslot))⟩
  obtain ⟨w', hscan, hplace⟩ := scanAll_laid (n := n) hlaid hsorted h.standing.covers pending r.wire
    (fun slot hslot => by
      obtain ⟨s, hs⟩ := hslots slot hslot
      exact ⟨s, hs, (h.pending hlist hs (hfront.mem.2 hslot)).1⟩) h.place
  refine ⟨w', ?_, hplace⟩
  have hgroup : ∀ slot : Nat,
      (r.cursors[slot]?.map fun s : Selected => s.cursor.group) = groups[slot]? := by
    intro slot
    rw [← h.standing.groups, List.getElem?_map]
  rw [hscan]
  simp only [hgroup]
  rw [chosen_groups (List.pairwise_filterMap.2 (hfront.ascend.imp ?_)) (hlaid.ascends.imp And.left)]
  · intro e he hmem
    obtain ⟨slot, hslot⟩ := List.mem_iff_getElem?.1 (hserved e he hmem)
    obtain ⟨s, hs, hsame⟩ := Option.map_eq_some_iff.1 ((hgroup slot).trans hslot)
    exact List.mem_filterMap.2 ⟨slot, (h.mem_pending hfront hlist hs).2 ⟨e, he, hsame.symm⟩, hslot⟩
  · intro a b hlt group hgroup group' hgroup'
    obtain ⟨ha, rfl⟩ := List.getElem?_eq_some_iff.1 hgroup
    obtain ⟨hb, rfl⟩ := List.getElem?_eq_some_iff.1 hgroup'
    exact List.pairwise_iff_getElem.1 hgroups a b ha hb hlt

/-- After the scans of a turn, the cursors are moved on to the lists that follow. -/
theorem Turning.advances (h : Turning checked x ranks groups wire n (list :: lists) r)
    (hfront : Front n r.heap pending above) (hlist : list.records.isEmpty = false) :
    ∃ cursors heap, advanceAll checked x pending r.cursors above = .ok (cursors, heap) ∧
      Standing checked x ranks groups (fun group => streamOf group (after n list) lists) []
        cursors heap := by
  have hsub : above.Sublist r.heap := hfront.eq ▸ List.sublist_append_right _ _
  have hlength : r.cursors.length = groups.length := by rw [← h.standing.groups, List.length_map]
  have hmem : ∀ {slot frame}, slot ∉ pending →
      ((frame, slot) ∈ above ↔ (frame, slot) ∈ r.heap) := by
    intro slot frame hslot
    rw [hfront.eq, List.mem_append, List.mem_map]
    refine ⟨.inr, fun hentry => hentry.resolve_left ?_⟩
    rintro ⟨slot', hslot', heq⟩
    cases heq
    exact hslot hslot'
  have hstanding : Standing checked x ranks groups
      (fun group => streamOf group (after n list) lists) pending r.cursors above := by
    refine { h.standing with
      sorted := h.standing.sorted.sublist hsub
      nodup := h.standing.nodup.sublist hsub
      slots := fun entry hentry => h.standing.slots entry (hsub.subset hentry)
      waiting := fun slot hslot s hs => ?_
      placed := fun slot s hslot hs => ?_ }
    · obtain ⟨-, hgives, hframe⟩ := h.pending hlist hs (hfront.mem.2 hslot)
      refine ⟨hgives, fun frame hentry => ?_⟩
      have hlt := hfront.above _ hentry
      rw [hframe frame (hsub.subset hentry)] at hlt
      exact Nat.lt_irrefl _ hlt
    · obtain ⟨hentries, hgives⟩ := h.standing.placed slot s List.not_mem_nil hs
      have hnone := h.resting hs (hfront.mem.not.2 hslot)
      rw [streamOf_cons, hnone] at hentries hgives
      exact ⟨fun frame => (hmem hslot).trans (hentries frame), hgives⟩
  exact hstanding.advanceAll (hfront.ascend.imp fun hlt => hlt.ne) fun slot hslot =>
    hlength ▸ h.standing.slots _ (hfront.mem.2 hslot)

end

/-- The next list has records of the groups, and cursors are in front that stand at its frame. -/
theorem Turning.turn (h : Turning checked x ranks groups wire n (list :: lists) r)
    (htouched : ∃ e ∈ list.records, e.rank / ranksPerGroup ∈ groups) :
    ∃ pending above, Front n r.heap pending above ∧ list.records.isEmpty = false ∧ pending ≠ [] ∧
      x.frames.items[n]? = some ⟨list.time, list.cyclic⟩ := by
  obtain ⟨pending, above, hfront⟩ := h.front
  obtain ⟨e, he, hgroup⟩ := htouched
  have hlist : list.records.isEmpty = false :=
    List.isEmpty_eq_false_iff.2 (List.ne_nil_of_mem he)
  refine ⟨pending, above, hfront, hlist, ?_, ?_⟩
  · obtain ⟨slot, hslot⟩ := List.mem_iff_getElem?.1 hgroup
    rw [← h.standing.groups, List.getElem?_map, Option.map_eq_some_iff] at hslot
    obtain ⟨s, hs, hsame⟩ := hslot
    exact List.ne_nil_of_mem ((h.mem_pending hfront hlist hs).2 ⟨e, he, hsame.symm⟩)
  · have hget := congrArg List.head? h.frames
    rw [List.head?_drop, framesOf, List.filterMap_cons, hlist] at hget
    exact hget

variable (stop) in
/-- **A turn reads the next list that has records of the groups.** It hands over the tick of a time
that is complete, and then the records that are selected. -/
theorem Turning.step {offset ends : Nat}
    (h : Turning checked x ranks groups wire n (list :: lists) r)
    (hlaid : Laid t active wire list.time list.cyclic offset 0 list.records ends)
    (hsorted : ranks.Pairwise (· < ·)) (hgroups : groups.Pairwise (· < ·))
    (hserved : ∀ e ∈ list.records, e.rank ∈ ranks → e.rank / ranksPerGroup ∈ groups)
    (htouched : ∃ e ∈ list.records, e.rank / ranksPerGroup ∈ groups) :
    (stop < list.time → readStep checked x t active stop r = (closing r.current, .stop (.ok ()))) ∧
    (list.time ≤ stop → ∃ r',
      readStep checked x t active stop r =
        (closing (r.current.filter fun previous => decide (previous ≠ list.time)) ++
          (list.records.filterMap (chosen ranks)).map Event.scalar, .next r') ∧
      Turning checked x ranks groups wire (after n list) lists r' ∧
      r'.current = some list.time) := by
  obtain ⟨pending, above, hfront, hlist, hpending, hstored⟩ := h.turn htouched
  obtain ⟨hpast, hturn, -⟩ := readStep_front hfront hpending hstored
  refine ⟨hpast, fun hstop => ?_⟩
  obtain ⟨w', hscan, hplace⟩ := h.scans hfront hlist hlaid hsorted hgroups hserved
  obtain ⟨cursors, heap, hadvance, hstanding⟩ := h.advances hfront hlist
  exact ⟨_, hturn _ _ _ _ hstop hscan hadvance, ⟨hstanding, drop_after h.frames, hplace⟩, rfl⟩

/-- A turn without further lists ends the read. -/
theorem Turning.done (h : Turning checked x ranks groups wire n [] r) :
    readStep checked x t active stop r = (closing r.current, .stop (.ok ())) := by
  have hempty : r.heap = [] := by
    refine List.eq_nil_iff_forall_not_mem.2 fun entry hentry => ?_
    have hs := List.getElem?_eq_getElem (h.standing.slots _ hentry)
    obtain ⟨p, hp, -⟩ := ((h.standing.placed _ _ List.not_mem_nil hs).entries entry.1).1 hentry
    cases hp
  unfold readStep
  rw [hempty]

/-! ## Runs -/

/-- A list has records of some groups. -/
def touches (groups : List Nat) (list : SourceList) : Bool :=
  list.records.any fun e => decide (e.rank / ranksPerGroup ∈ groups)

/-- The events of a read of some ranks, whose groups have cursors: the selected records of the lists
with records of the groups, up to an end, with the end of a list and a tick for each time. -/
def recited (ranks groups : List Nat) (stop : Nat) : Option Nat → List SourceList → List Event
  | current, [] => closing current
  | current, list :: lists =>
    if touches groups list then
      if stop < list.time then closing current
      else
        closing (current.filter fun previous => decide (previous ≠ list.time)) ++
          (list.records.filterMap (chosen ranks)).map Event.scalar ++
            recited ranks groups stop (some list.time) lists
    else recited ranks groups stop current lists

/-- What a query is of: ascending ranks whose groups have cursors when they have records. -/
structure Serves (ranks groups : List Nat) (lists : List SourceList) : Prop where
  ascend : ranks.Pairwise (· < ·)
  groupsAscend : groups.Pairwise (· < ·)
  served : ∀ list ∈ lists, ∀ e ∈ list.records, e.rank ∈ ranks → e.rank / ranksPerGroup ∈ groups

/-- A list with records has a frame. -/
theorem length_framesOf_cons (list : SourceList) (lists : List SourceList) :
    (framesOf (list :: lists)).length =
      (framesOf lists).length + if list.records.isEmpty then 0 else 1 := by
  unfold framesOf
  rw [List.filterMap_cons]
  cases list.records.isEmpty <;> rfl

/-- A list that is not touched has no records of the groups. -/
theorem quiet_of_touches (h : touches groups list = false) :
    ∀ e ∈ list.records, e.rank / ranksPerGroup ∉ groups := fun e he =>
  of_decide_eq_false (by simpa using List.any_eq_false.1 h e he)

/-- A list that is touched has a record of the groups. -/
theorem exists_of_touches (h : touches groups list = true) :
    ∃ e ∈ list.records, e.rank / ranksPerGroup ∈ groups := by
  obtain ⟨e, he, hgroup⟩ := List.any_eq_true.1 h
  exact ⟨e, he, of_decide_eq_true hgroup⟩

/-- A query of lists is one of those after the first. -/
theorem Serves.tail (h : Serves ranks groups (list :: lists)) : Serves ranks groups lists :=
  { h with served := fun list hlist => h.served list (.tail _ hlist) }

variable (stop) in
/-- **The turns recite the lists**, by induction on them. No list takes more than one turn. -/
theorem Turning.drive {σ B : Type} (visitor : σ → Event → σ × ControlFlow B) :
    ∀ {lists : List SourceList} {n fuel : Nat} {r : Reading}, Serves ranks groups lists →
      (∀ list ∈ lists, ∃ start ends,
        Laid t active wire list.time list.cyclic start 0 list.records ends) →
      Turning checked x ranks groups wire n lists r → (framesOf lists).length < fuel → ∀ c : σ,
      Library.drive (readStep checked x t active stop) visitor fuel c r =
        ending (.ok ()) (Library.visit visitor c (recited ranks groups stop r.current lists))
  | [], n, fuel + 1, r, _, _, h, _, c => drive_stop visitor h.done fuel c
  | list :: lists, n, fuel, r, hserves, hlaid, h, hfuel, c => by
    have hlaid' := fun list' (hlist : list' ∈ lists) => hlaid list' (.tail _ hlist)
    have hframes := length_framesOf_cons list lists
    cases htouches : touches groups list with
    | false =>
      rw [recited, htouches, if_neg Bool.false_ne_true]
      exact (h.quiet (quiet_of_touches htouches)).drive visitor hserves.tail hlaid' (by omega) c
    | true =>
      obtain ⟨e, he, -⟩ := exists_of_touches htouches
      obtain ⟨start, ends, hlies⟩ := hlaid list (.head _)
      obtain ⟨fuel, rfl⟩ : ∃ fuel', fuel = fuel' + 1 := ⟨fuel - 1, by omega⟩
      obtain ⟨hpast, hturn⟩ := h.step stop hlies hserves.ascend hserves.groupsAscend
        (hserves.served list (.head _)) (exists_of_touches htouches)
      rw [recited, htouches, if_pos rfl]
      by_cases hstop : stop < list.time
      · rw [if_pos hstop]
        exact drive_stop visitor (hpast hstop) fuel c
      · rw [if_neg hstop]
        obtain ⟨r', hstep, h', hcurrent⟩ := hturn (Nat.le_of_not_lt hstop)
        rw [← hcurrent]
        rw [List.isEmpty_eq_false_iff.2 (List.ne_nil_of_mem he), if_neg Bool.false_ne_true]
          at hframes
        exact drive_next hstep
          (fun c => h'.drive visitor hserves.tail hlaid' (by omega) c) c

end

end Index

end Ondas.Ghw
