import Ondas.Ghw.Positions

/-!
# What the index records

The walk hands over the scalars of one source list after the other. An index that is kept has a
frame for each list with records, and for each group of ranks the first record of each list that has
one of the group (`positionsOf`). This is so at every place of the walk (`Tracks`), of which a push
is a step (`Tracks.push`). At its end the streams are complete, and a cursor gives the positions
(`positions_recorded`).
-/

namespace Ondas.Ghw

open Library

namespace Index

/-! ## Source lists -/

/-- A list of the body: its time, its kind and its scalars. -/
structure SourceList where
  time : Nat
  cyclic : Bool
  records : List ScalarEvent

/-- The events of a list. -/
def SourceList.events (list : SourceList) : List Event :=
  list.records.map Event.scalar ++ [.listEnd list.time]

/-- The frames of lists. -/
def framesOf (lists : List SourceList) : List Frame :=
  lists.filterMap fun list => if list.records.isEmpty then none else some ⟨list.time, list.cyclic⟩

/-- The position of a group in a list: its first record there. -/
def positionOf (group frame : Nat) (records : List ScalarEvent) : Option (Nat × Nat × Nat) :=
  (records.find? fun event => event.rank / ranksPerGroup == group).map fun event =>
    (frame, event.offset, event.rank % ranksPerGroup)

/-- The positions of a group in lists, of which those with records have numbers. -/
def positionsOf (group : Nat) (lists : List SourceList) : List (Nat × Nat × Nat) :=
  (lists.filter fun list => !list.records.isEmpty).zipIdx.filterMap fun (list, frame) =>
    positionOf group frame list.records

/-- Lists as the walk hands them over: the records of a list are of its time and kind, their ranks
ascend in the active table, and the offsets of all records do not descend. -/
structure InOrder (active : Nat) (lists : List SourceList) : Prop where
  kinds : ∀ list ∈ lists, ∀ event ∈ list.records, event.time = list.time ∧
    event.cyclic = list.cyclic
  ranks : ∀ list ∈ lists, list.records.Pairwise fun a b => a.rank < b.rank
  active : ∀ list ∈ lists, ∀ event ∈ list.records, event.rank < active
  offsets : (lists.flatMap SourceList.records).Pairwise fun a b => a.offset ≤ b.offset
  words : ∀ list ∈ lists, ∀ event ∈ list.records, event.offset < 2 ^ 64

section
variable {active group : Nat} {lists rest : List SourceList} {list : SourceList}
  {records more : List ScalarEvent} {event : ScalarEvent}

/-- Lists up to a record. -/
theorem InOrder.upto
    (h : InOrder active (lists ++ { list with records := records ++ more } :: rest)) :
    InOrder active (lists ++ [{ list with records := records }]) := by
  have hlists : ∀ {P : SourceList → Prop},
      (∀ l ∈ lists ++ { list with records := records ++ more } :: rest, P l) →
      (P { list with records := records ++ more } → P { list with records := records }) →
      ∀ l ∈ lists ++ [{ list with records := records }], P l := by
    intro P hall hlast l hl
    rcases List.mem_append.1 hl with hl | hl
    · exact hall l (List.mem_append_left _ hl)
    · rw [List.mem_singleton.1 hl]
      exact hlast (hall _ (List.mem_append_right _ (.head _)))
  refine ⟨hlists h.kinds fun hlast e he => hlast e (List.mem_append_left _ he),
    hlists h.ranks fun hlast => (List.pairwise_append.1 hlast).1,
    hlists h.active fun hlast e he => hlast e (List.mem_append_left _ he), ?_,
    hlists h.words fun hlast e he => hlast e (List.mem_append_left _ he)⟩
  have hoffsets := h.offsets
  rw [List.flatMap_append, List.flatMap_cons, List.append_assoc, ← List.append_assoc] at hoffsets
  rw [List.flatMap_append, List.flatMap_singleton]
  exact (List.pairwise_append.1 hoffsets).1

/-- Source lists in order stay so without the last one. -/
theorem InOrder.init (h : InOrder active (lists ++ [list])) : InOrder active lists := by
  refine ⟨fun l hl => h.kinds l (List.mem_append_left _ hl),
    fun l hl => h.ranks l (List.mem_append_left _ hl),
    fun l hl => h.active l (List.mem_append_left _ hl), ?_,
    fun l hl => h.words l (List.mem_append_left _ hl)⟩
  have hoffsets := h.offsets
  rw [List.flatMap_append] at hoffsets
  exact (List.pairwise_append.1 hoffsets).1

/-- No record is at an offset after the records of a later list. -/
theorem InOrder.offset_le (h : InOrder active (lists ++ [list])) {earlier : SourceList}
    (hearlier : earlier ∈ lists) {before : ScalarEvent} (hbefore : before ∈ earlier.records)
    (hevent : event ∈ list.records) : before.offset ≤ event.offset := by
  have hoffsets := h.offsets
  rw [List.flatMap_append, List.flatMap_singleton] at hoffsets
  exact (List.pairwise_append.1 hoffsets).2.2 before (List.mem_flatMap.2 ⟨_, hearlier,
    hbefore⟩) event hevent

/-! ## Positions -/

/-- The lists with records are as many as the frames. -/
theorem length_framesOf (lists : List SourceList) :
    (lists.filter fun list => !list.records.isEmpty).length = (framesOf lists).length := by
  induction lists with
  | nil => rfl
  | cons list lists ih =>
    unfold framesOf
    rw [List.filter_cons, List.filterMap_cons]
    cases hempty : list.records.isEmpty with
    | true => exact ih
    | false => exact congrArg Nat.succ ih

/-- A list adds a frame when it has records. -/
theorem framesOf_append : framesOf (lists ++ [list]) =
    framesOf lists ++ if list.records.isEmpty then [] else [⟨list.time, list.cyclic⟩] := by
  unfold framesOf
  rw [List.filterMap_append, List.filterMap_cons, List.filterMap_nil]
  cases list.records.isEmpty <;> rfl

/-- One more list, with the next number if it has records. -/
theorem positionsOf_append (group : Nat) (lists : List SourceList) (list : SourceList) :
    positionsOf group (lists ++ [list]) = positionsOf group lists ++
      (positionOf group (framesOf lists).length list.records).toList := by
  unfold positionsOf
  rw [List.filter_append, List.filter_singleton]
  cases hrecords : list.records with
  | nil =>
    show List.filterMap _ ((lists.filter _ ++ []).zipIdx) = _ ++ []
    rw [List.append_nil, List.append_nil]
  | cons event records =>
    show ((_ ++ [list]).zipIdx).filterMap _ = _
    rw [List.zipIdx_append, List.filterMap_append, Nat.zero_add, length_framesOf]
    show _ ++ List.filterMap _ [(list, _)] = _
    rw [List.filterMap_cons, List.filterMap_nil]
    dsimp only
    rw [hrecords]
    cases positionOf group (framesOf lists).length (event :: records) <;> rfl

/-- A record of another group changes no position, and one of a group that has a record neither. -/
theorem positionOf_append (group frame : Nat) (records : List ScalarEvent) (event : ScalarEvent) :
    positionOf group frame (records ++ [event]) = (positionOf group frame records).or
      (if event.rank / ranksPerGroup = group then
        some (frame, event.offset, event.rank % ranksPerGroup) else none) := by
  unfold positionOf
  rw [List.find?_append, Option.map_or, List.find?_cons]
  by_cases heq : event.rank / ranksPerGroup = group
  · rw [if_pos heq, beq_iff_eq.2 heq]
    rfl
  · rw [if_neg heq, beq_eq_false_iff_ne.2 heq]
    rfl

/-- The position of a group in a frame is that of one of its records. -/
theorem mem_positionOf {frame : Nat} {p : Nat × Nat × Nat}
    (h : positionOf group frame records = some p) :
    p.1 = frame ∧ p.2.2 < ranksPerGroup ∧ ∃ event ∈ records, event.offset = p.2.1 := by
  obtain ⟨event, hfind, rfl⟩ := Option.map_eq_some_iff.1 h
  exact ⟨rfl, Nat.mod_lt _ (by decide), event, List.mem_of_find?_eq_some hfind, rfl⟩

/-- A position of lists has a number of a frame, a rank in its group and the offset of a record. -/
theorem mem_positionsOf (lists : List SourceList) : ∀ p ∈ positionsOf group lists,
    p.1 < (framesOf lists).length ∧ p.2.2 < ranksPerGroup ∧
      ∃ list ∈ lists, ∃ event ∈ list.records, event.offset = p.2.1 := by
  induction lists using List.reverseRecOn with
  | nil => exact fun _ hp => nomatch hp
  | append_singleton lists list ih =>
    intro p hp
    rw [positionsOf_append] at hp
    have hframes : (framesOf lists).length ≤ (framesOf (lists ++ [list])).length := by
      rw [framesOf_append, List.length_append]
      exact Nat.le_add_right _ _
    rcases List.mem_append.1 hp with hp | hp
    · obtain ⟨hframe, hfirst, earlier, hearlier, event, hevent⟩ := ih p hp
      exact ⟨hframe.trans_le hframes, hfirst, earlier, List.mem_append_left _ hearlier,
        event, hevent⟩
    · obtain ⟨hframe, hfirst, event, hevent, hoffset⟩ := mem_positionOf (Option.mem_toList.1 hp)
      have hne : list.records.isEmpty = false :=
        List.isEmpty_eq_false_iff.2 (List.ne_nil_of_mem hevent)
      refine ⟨?_, hfirst, list, List.mem_append_right _ (.head _), event, hevent, hoffset⟩
      rw [hframe, framesOf_append, hne, List.length_append]
      exact Nat.lt_succ_self _

/-- The frames of positions ascend, and their offsets do not descend. -/
theorem InOrder.positions (h : InOrder active lists) :
    (positionsOf group lists).Pairwise fun p q => p.1 < q.1 ∧ p.2.1 ≤ q.2.1 := by
  induction lists using List.reverseRecOn with
  | nil => exact List.Pairwise.nil
  | append_singleton lists list ih =>
    rw [positionsOf_append]
    refine List.pairwise_append.2 ⟨ih h.init, ?_, fun p hp q hq => ?_⟩
    · cases positionOf group (framesOf lists).length list.records with
      | none => exact List.Pairwise.nil
      | some p => exact List.pairwise_singleton _ _
    · obtain ⟨hframe, -, earlier, hearlier, before, hbefore, hoffset⟩ := mem_positionsOf lists p hp
      obtain ⟨hframe', -, event, hevent, hoffset'⟩ := mem_positionOf (Option.mem_toList.1 hq)
      exact ⟨hframe' ▸ hframe, hoffset ▸ hoffset' ▸ h.offset_le hearlier hbefore hevent⟩

theorem InOrder.ascend (h : InOrder active lists) :
    ((positionsOf group lists).map Prod.fst).Pairwise (· < ·) :=
  List.pairwise_map.2 (h.positions.imp And.left)

/-- The positions of lists are of words when there are not too many frames. -/
theorem InOrder.sound (h : InOrder active lists) (hframes : (framesOf lists).length < 2 ^ 32) :
    Sound (positionsOf group lists) := by
  refine ⟨h.positions, fun p hp => ?_⟩
  obtain ⟨hframe, hfirst, list, hlist, event, hevent, hoffset⟩ := mem_positionsOf lists p hp
  exact ⟨hframe.trans hframes, hoffset ▸ h.words list hlist event hevent, hfirst.trans (by decide)⟩

/-! ## Tracking -/

/-- The records of a list that is read, after all of other lists, are in the index. -/
structure Tracks (active limit : Nat) (done : List SourceList) (list : SourceList) (x : Index) :
    Prop where
  accounted : x.Accounted
  limit : x.limit = limit
  isOpen : x.isOpen = !list.records.isEmpty
  frames : x.frames.items = framesOf (done ++ [list])
  last : ∀ event, list.records.getLast? = some event →
    x.current = (framesOf done).length ∧ x.lastGroup = event.rank / ranksPerGroup
  groups : x.ids.items.length = groupCount active
  has : ∀ g < groupCount active, ∃ s, x.Has g s ∧ s.Holds (positionsOf g (done ++ [list]))

/-- The index in which a record enters a frame: that of the list, which is the last one. -/
structure Begun (active limit : Nat) (done : List SourceList) (list : SourceList) (y : Index) :
    Prop where
  accounted : y.Accounted
  limit : y.limit = limit
  isOpen : y.isOpen = true
  frames : y.frames.items = framesOf done ++ [⟨list.time, list.cyclic⟩]
  current : y.current = (framesOf done).length
  last : ∀ event, list.records.getLast? = some event → y.lastGroup = event.rank / ranksPerGroup
  first : list.records = [] → y.lastGroup = noGroup
  groups : y.ids.items.length = groupCount active
  has : ∀ g < groupCount active, ∃ s, y.Has g s ∧ s.Holds (positionsOf g (done ++ [list]))

/-- An index at the start of a record has begun its list, with a new frame when the list had no
record. -/
theorem Tracks.begun {limit : Nat} {x y : Index} (h : Tracks active limit lists list x)
    (hkind : event.time = list.time ∧ event.cyclic = list.cyclic)
    (hstarts : Starts event.time event.cyclic x y) : Begun active limit lists list y := by
  unfold Starts at hstarts
  rw [h.isOpen] at hstarts
  have hframes := h.frames
  rw [framesOf_append] at hframes
  cases hempty : list.records.isEmpty with
  | true =>
    rw [hempty] at hstarts hframes
    have hnil : list.records = [] := List.isEmpty_iff.1 hempty
    have hframes' : x.frames.items = framesOf lists := hframes.trans (List.append_nil _)
    have hopened : Opened event.time event.cyclic x y := hstarts
    refine ⟨hopened.accounted, hopened.limit.trans h.limit, hopened.isOpen, ?_, ?_, ?_,
      fun _ => hopened.lastGroup, hopened.groups.trans h.groups, fun g hg => ?_⟩
    · rw [hopened.frames, hframes', hkind.1, hkind.2]
    · rw [hopened.current, hframes']
    · intro last hlast
      rw [hnil] at hlast
      cases hlast
    · obtain ⟨s, hs, hholds⟩ := h.has g hg
      exact ⟨s, hopened.has g s hs, hholds⟩
  | false =>
    rw [hempty] at hstarts hframes
    obtain rfl : y = x := hstarts
    have hne : list.records ≠ [] := List.isEmpty_eq_false_iff.1 hempty
    obtain ⟨hcurrent, -⟩ := h.last _ (List.getLast?_eq_some_getLast hne)
    exact ⟨h.accounted, h.limit, h.isOpen.trans (by rw [hempty]; rfl), hframes, hcurrent,
      fun last hlast => (h.last last hlast).2, fun hnil => absurd hnil hne, h.groups, h.has⟩

/-- The groups of an index and its frames are within its limit. -/
theorem Accounted.within_limit {x : Index} (h : x.Accounted) :
    x.frames.items.length * frameBytes ≤ x.limit ∧ x.ids.items.length * vecBytes ≤ x.limit := by
  have haccounts := h.allocated.symm.trans_le h.within
  have hframes := Nat.mul_le_mul_right frameBytes x.frames.fits
  have hids := Nat.mul_le_mul_right vecBytes x.ids.fits
  unfold reserved retained at haccounts
  rw [Nat.add_mul] at haccounts
  omega

/-- The stored bytes of a group are within the limit of an index. -/
theorem Accounted.stored_le {x : Index} (h : x.Accounted) {g : Nat} {ids offs : List UInt8}
    (hstored : x.Stored g ids offs) : ids.length ≤ x.limit ∧ offs.length ≤ x.limit := by
  obtain ⟨⟨v, hv, rfl⟩, w, hw, rfl⟩ := hstored
  have haccounts := h.allocated.symm.trans_le h.within
  -- Each capacity is part of its sum: what is left when it is taken out is not negative.
  have hempty : (Vec.empty : Vec UInt8).capacity = 0 := rfl
  have hids := Vec.sum_map_set Vec.capacity hv Vec.empty
  have hoffs := Vec.sum_map_set Vec.capacity hw Vec.empty
  have hv' := v.fits
  have hw' := w.fits
  unfold reserved retained at haccounts
  omega

/-- A rank of the active table is in a group. -/
theorem group_lt {rank : Nat} (h : rank < active) : rank / ranksPerGroup < groupCount active := by
  unfold groupCount
  have hpos : 0 < ranksPerGroup := by decide
  rw [Nat.div_lt_iff_lt_mul hpos]
  have hmod := Nat.div_add_mod (active + (ranksPerGroup - 1)) ranksPerGroup
  have hlt := Nat.mod_lt (active + (ranksPerGroup - 1)) hpos
  rw [Nat.mul_comm] at hmod
  omega

section
variable {limit : Nat} {y : Index}

/-- The frame of a list that is read has a number of 32 bits, which is not the one for no frame. -/
theorem Begun.frame_lt (h : Begun active limit lists list y) (hlimit : limit ≤ indexBytes) :
    (framesOf lists).length < noFrame := by
  have hbytes := h.accounted.within_limit.1
  rw [h.frames, h.limit, List.length_append, List.length_singleton] at hbytes
  have hall := hbytes.trans hlimit
  unfold frameBytes indexBytes at hall
  unfold noFrame
  omega

/-- No group has the number for no group. -/
theorem Begun.group_ne (h : Begun active limit lists list y) (hlimit : limit ≤ indexBytes) {g : Nat}
    (hg : g < groupCount active) : g ≠ noGroup := by
  have hbytes := h.accounted.within_limit.2
  rw [h.groups, h.limit] at hbytes
  have hall := hbytes.trans hlimit
  unfold vecBytes indexBytes at hall
  unfold noGroup
  omega

/-- A record whose group is not that of the last record is the first one of its group in the
list. -/
theorem Begun.positionOf_none (h : Begun active limit lists list y)
    (hranks : (list.records ++ [event]).Pairwise fun a b => a.rank < b.rank)
    (hother : event.rank / ranksPerGroup ≠ y.lastGroup) (frame : Nat) :
    positionOf (event.rank / ranksPerGroup) frame list.records = none := by
  unfold positionOf
  rw [Option.map_eq_none_iff, List.find?_eq_none]
  intro before hbefore heq
  obtain ⟨init, last, hrecords⟩ : ∃ init last, list.records = init ++ [last] := by
    refine ⟨list.records.dropLast, list.records.getLast (List.ne_nil_of_mem hbefore), ?_⟩
    exact (List.dropLast_append_getLast _).symm
  have hlast : y.lastGroup = last.rank / ranksPerGroup := h.last last (by
    rw [hrecords, List.getLast?_concat])
  rw [hrecords] at hranks hbefore
  obtain ⟨hinit, -, hevent⟩ := List.pairwise_append.1 hranks
  have hle : last.rank / ranksPerGroup ≤ event.rank / ranksPerGroup :=
    Nat.div_le_div_right (hevent last (List.mem_append_right _ (.head _)) event (.head _)).le
  have hbefore' : before.rank / ranksPerGroup ≤ last.rank / ranksPerGroup := by
    rcases List.mem_append.1 hbefore with hbefore | hbefore
    · exact Nat.div_le_div_right ((List.pairwise_append.1 hinit).2.2 before hbefore last
        (.head _)).le
    · rw [List.mem_singleton.1 hbefore]
  have heq' : before.rank / ranksPerGroup = event.rank / ranksPerGroup := beq_iff_eq.1 heq
  exact hother (le_antisymm (heq' ▸ hbefore') hle |>.trans hlast.symm)

/-- A record whose group is that of the last record is not the first one of its group in the
list. -/
theorem Begun.positionOf_isSome (h : Begun active limit lists list y) (hlimit : limit ≤ indexBytes)
    (hgroup : event.rank / ranksPerGroup < groupCount active)
    (hsame : event.rank / ranksPerGroup = y.lastGroup) (frame : Nat) :
    (positionOf (event.rank / ranksPerGroup) frame list.records).isSome := by
  unfold positionOf
  rw [Option.isSome_map, List.find?_isSome]
  cases hlast : list.records.getLast? with
  | none =>
    have hno := h.first (List.getLast?_eq_none_iff.1 hlast)
    exact absurd (hsame.trans hno) (h.group_ne hlimit hgroup)
  | some last =>
    exact ⟨last, List.mem_of_getLast? hlast,
      beq_iff_eq.2 ((h.last last hlast).symm.trans hsame.symm)⟩

end

/-! ## Steps -/

section
variable {limit : Nat} {x y x' : Index}

/-- A group that has the positions in other lists may get a record. -/
theorem Begun.ready (h : Begun active limit lists { list with records := records } y)
    (horder : InOrder active (lists ++ [{ list with records := records ++ [event] }]))
    (hlimit : limit ≤ indexBytes) {s : Group} (hholds : s.Holds (positionsOf group lists)) :
    s.Ready y.current event.offset := by
  refine hholds.ready horder.init.ascend (fun p hp => ?_) (fun p hp => ?_) ?_
  · rw [h.current]
    exact (mem_positionsOf lists p hp).1
  · obtain ⟨-, -, earlier, hearlier, before, hbefore, hoffset⟩ := mem_positionsOf lists p hp
    exact hoffset ▸ horder.offset_le hearlier hbefore (List.mem_append_right _ (.head _))
  · rw [h.current]
    exact (h.frame_lt hlimit).trans (by decide)

/-- The group of a record may get it. -/
theorem Begun.mayEnter (h : Begun active limit lists { list with records := records } y)
    (horder : InOrder active (lists ++ [{ list with records := records ++ [event] }]))
    (hlimit : limit ≤ indexBytes) : MayEnter event.rank event.offset y := by
  by_cases hsame : event.rank / ranksPerGroup = y.lastGroup
  · exact .inl hsame
  have hlist : { list with records := records ++ [event] } ∈
      lists ++ [{ list with records := records ++ [event] }] := List.mem_append_right _ (.head _)
  have hevent : event ∈ records ++ [event] := List.mem_append_right _ (.head _)
  obtain ⟨s, hs, hholds⟩ := h.has _ (group_lt (horder.active _ hlist event hevent))
  rw [positionsOf_append, h.positionOf_none (horder.ranks _ hlist) hsame] at hholds
  have hholds' : s.Holds (positionsOf (event.rank / ranksPerGroup) lists) := by
    rwa [Option.toList_none, List.append_nil] at hholds
  exact .inr ⟨s, hs, h.ready horder hlimit hholds'⟩

/-- **A record is tracked** when it has entered its frame. -/
theorem Begun.enters (h : Begun active limit lists { list with records := records } y)
    (horder : InOrder active (lists ++ [{ list with records := records ++ [event] }]))
    (hlimit : limit ≤ indexBytes) (henters : Enters event.rank event.offset y x') :
    Tracks active limit lists { list with records := records ++ [event] } x' := by
  have hlist : { list with records := records ++ [event] } ∈
      lists ++ [{ list with records := records ++ [event] }] := List.mem_append_right _ (.head _)
  have hevent : event ∈ records ++ [event] := List.mem_append_right _ (.head _)
  have hgroup := group_lt (horder.active _ hlist event hevent)
  have hnonempty : (records ++ [event]).isEmpty = false :=
    List.isEmpty_eq_false_iff.2 (List.append_ne_nil_of_right_ne_nil _ (List.cons_ne_nil _ _))
  have hframes : framesOf lists ++ [⟨list.time, list.cyclic⟩] =
      framesOf (lists ++ [{ list with records := records ++ [event] }]) := by
    rw [framesOf_append, hnonempty]
    rfl
  have hlast : ∀ last, (records ++ [event]).getLast? = some last → last = event := by
    intro last hlast
    rw [List.getLast?_concat] at hlast
    exact (Option.some.inj hlast).symm
  -- The positions of a group with the record.
  have hpositions : ∀ g, positionsOf g (lists ++ [{ list with records := records ++ [event] }]) =
      positionsOf g lists ++ ((positionOf g (framesOf lists).length records).or
        (if event.rank / ranksPerGroup = g then some ((framesOf lists).length, event.offset,
          event.rank % ranksPerGroup) else none)).toList := by
    intro g
    rw [positionsOf_append, positionOf_append]
  unfold Enters at henters
  by_cases hsame : event.rank / ranksPerGroup = y.lastGroup
  · rw [if_pos hsame] at henters
    subst henters
    refine ⟨h.accounted, h.limit, h.isOpen.trans (by rw [hnonempty]; rfl),
      h.frames.trans hframes, ?_,
      h.groups, fun g hg => ?_⟩
    · intro last hlast'
      rw [hlast last hlast']
      exact ⟨h.current, hsame.symm⟩
    · obtain ⟨s, hs, hholds⟩ := h.has g hg
      refine ⟨s, hs, ?_⟩
      rw [positionsOf_append] at hholds
      rw [hpositions]
      by_cases heq : event.rank / ranksPerGroup = g
      · obtain ⟨p, hp⟩ := Option.isSome_iff_exists.1
          (h.positionOf_isSome hlimit hgroup hsame (framesOf lists).length)
        rw [← heq] at hholds ⊢
        rw [hp] at hholds ⊢
        exact hholds
      · rwa [if_neg heq, Option.or_none]
  · rw [if_neg hsame] at henters
    have hnone := h.positionOf_none (horder.ranks _ hlist) hsame (framesOf lists).length
    refine ⟨henters.accounted, henters.limit.trans h.limit,
      henters.isOpen.trans (h.isOpen.trans (by rw [hnonempty]; rfl)),
      (congrArg Vec.items henters.frames).trans (h.frames.trans hframes), ?_,
      henters.groups.trans h.groups, fun g hg => ?_⟩
    · intro last hlast'
      rw [hlast last hlast']
      exact ⟨henters.current.trans h.current, henters.lastGroup⟩
    · obtain ⟨s, hs, hholds⟩ := h.has g hg
      rw [positionsOf_append] at hholds
      rw [hpositions]
      by_cases heq : event.rank / ranksPerGroup = g
      · subst heq
        rw [hnone] at hholds ⊢
        have hholds' : s.Holds (positionsOf (event.rank / ranksPerGroup) lists) := by
          rwa [Option.toList_none, List.append_nil] at hholds
        obtain ⟨s', hrel, hs'⟩ := henters.group s { hs with }
        refine ⟨s', hs', ?_⟩
        rw [hrel (h.ready horder hlimit hholds'), h.current, if_pos rfl]
        exact hholds'.record (fun p hp => (mem_positionsOf lists p hp).1)
          (fun p hp => Nat.ne_of_lt ((mem_positionsOf lists p hp).1.trans (h.frame_lt hlimit))) _
      · rw [if_neg heq, Option.or_none]
        exact ⟨s, henters.others g s (Ne.symm heq) { hs with }, hholds⟩

/-- The end of a list, after which another one is read. -/
theorem Tracks.listEnd (h : Tracks active limit lists list x) (next : SourceList) :
    Tracks active limit (lists ++ [list]) { next with records := [] } x.listEnd := by
  have hframes : framesOf (lists ++ [list] ++ [{ next with records := [] }]) =
      framesOf (lists ++ [list]) := by
    rw [framesOf_append]
    exact List.append_nil _
  have hpositions : ∀ g, positionsOf g (lists ++ [list] ++ [{ next with records := [] }]) =
      positionsOf g (lists ++ [list]) := by
    intro g
    rw [positionsOf_append]
    exact List.append_nil _
  refine ⟨⟨h.accounted.allocated, h.accounted.within⟩, h.limit, rfl,
    h.frames.trans hframes.symm, nofun,
    h.groups, fun g hg => ?_⟩
  obtain ⟨s, hs, hholds⟩ := h.has g hg
  exact ⟨s, { hs with }, (hpositions g).symm ▸ hholds⟩

/-! ## Runs -/

variable {checked : Bool}

/-- The index that is kept, if one is, tracks. -/
def Tracked (active limit : Nat) (lists : List SourceList) (list : SourceList)
    (positions : Option Index) : Prop :=
  ∀ x, positions = some x → Tracks active limit lists list x

/-- **One record**: no difference underflows, and an index that is kept has the record. -/
theorem Tracks.visit (hlimit : limit ≤ indexBytes)
    (horder : InOrder active (lists ++ [{ list with records := records ++ [event] }]))
    (h : Tracks active limit lists { list with records := records } x) :
    Settles (Tracked active limit lists { list with records := records ++ [event] })
      (fun _ => False)
      (visit checked (.scalar event) (some x)) := by
  have hkind := horder.kinds _ (List.mem_append_right _ (.head _)) event
    (List.mem_append_right _ (.head _))
  have hbegun : ∀ y, Starts event.time event.cyclic x y →
      Begun active limit lists { list with records := records } y :=
    fun y hstarts => h.begun hkind hstarts
  refine (push_settles h.accounted (.inl fun y hstarts =>
    (hbegun y hstarts).mayEnter horder hlimit)).bind fun r hr => ?_
  obtain ⟨kept, x'⟩ := r
  rintro y hy
  split at hy
  · next htrue =>
    cases hy
    obtain ⟨z, hstarts, henters⟩ := hr htrue
    exact (hbegun z hstarts).enters horder hlimit henters
  · cases hy

/-- The records that are left of a list. -/
theorem Tracks.visitAll (hlimit : limit ≤ indexBytes) (more : List ScalarEvent) :
    ∀ (records : List ScalarEvent) (x : Index),
      InOrder active (lists ++ [{ list with records := records ++ more }]) →
      Tracks active limit lists { list with records := records } x →
      Settles (Tracked active limit lists { list with records := records ++ more }) (fun _ => False)
        (visitAll checked (more.map Event.scalar) (some x)) := by
  induction more with
  | nil =>
    rintro records x - h _ ⟨⟩
    rwa [List.append_nil]
  | cons event more ih =>
    intro records x horder h
    have hsplit : records ++ event :: more = (records ++ [event]) ++ more := List.append_cons _ _ _
    rw [hsplit] at horder ⊢
    refine (h.visit hlimit horder.upto).bind fun positions hpositions => ?_
    cases positions with
    | none =>
      rw [visitAll_none]
      exact nofun
    | some y => exact ih _ y horder (hpositions y rfl)

/-- An index takes two runs of events one after the other. -/
theorem visitAll_append (checked : Bool) (events more : List Event) : ∀ positions : Option Index,
    visitAll checked (events ++ more) positions =
      visitAll checked events positions >>= visitAll checked more := by
  induction events with
  | nil => exact fun _ => rfl
  | cons event events ih =>
    intro positions
    show (visit checked event positions >>= visitAll checked (events ++ more)) =
      (visit checked event positions >>= visitAll checked events) >>= visitAll checked more
    rw [bind_assoc]
    exact congrArg _ (funext ih)

/-- The lists that are left. -/
theorem Tracks.visitLists (hlimit : limit ≤ indexBytes) (next : SourceList)
    (more : List SourceList) :
    ∀ (lists : List SourceList) (x : Index), InOrder active (lists ++ more) →
      (∀ list : SourceList, Tracks active limit lists { list with records := [] } x) →
      Settles (Tracked active limit (lists ++ more) { next with records := [] }) (fun _ => False)
        (Index.visitAll checked (more.flatMap SourceList.events) (some x)) := by
  induction more with
  | nil =>
    rintro lists x - h _ ⟨⟩
    rw [List.append_nil]
    exact h next
  | cons list more ih =>
    intro lists x horder h
    have hlist : InOrder active (lists ++ [{ list with records := [] ++ list.records }]) :=
      InOrder.upto (by rw [List.append_nil]; exact horder)
    rw [List.flatMap_cons, SourceList.events, List.append_assoc, visitAll_append]
    refine ((h list).visitAll hlimit list.records [] x hlist).bind fun positions hpositions => ?_
    cases positions with
    | none =>
      rw [visitAll_none]
      exact nofun
    | some y =>
      have hlistEnd := (hpositions y rfl).listEnd
      have hsplit : lists ++ list :: more = (lists ++ [list]) ++ more := List.append_cons _ _ _
      rw [hsplit] at horder ⊢
      exact ih _ y.listEnd horder hlistEnd

/-- A new index tracks a body without lists. -/
theorem Made.tracks (h : Made (groupCount active) limit x) (list : SourceList) :
    Tracks active limit [] { list with records := [] } x where
  accounted := h.accounted
  limit := h.limit
  isOpen := h.isOpen
  frames := h.frames
  last := nofun
  groups := h.groups
  has g hg := ⟨_, h.has g hg, rfl⟩

/-- An index that is complete gives the positions of every group. -/
theorem Tracks.finish (checked : Bool) (hlimit : limit ≤ indexBytes)
    (horder : InOrder active lists) (list : SourceList)
    (h : Tracks active limit lists { list with records := [] } x) :
    Settles (fun r => r.1 = true → r.2.frames.items = framesOf lists ∧
      ∀ group < groupCount active, ∀ calls, (positionsOf group lists).length < calls →
        r.2.positionsFrom checked calls (.fresh group) = .ok (some (positionsOf group lists)))
      (fun _ => False) x.finish := by
  have hframes : x.frames.items = framesOf lists := by
    rw [h.frames, framesOf_append]
    exact List.append_nil _
  have hpositions : ∀ g < groupCount active, ∃ s, x.Has g s ∧ s.Holds (positionsOf g lists) := by
    intro g hg
    obtain ⟨s, hs, hholds⟩ := h.has g hg
    rw [positionsOf_append] at hholds
    exact ⟨s, hs, (List.append_nil (positionsOf g lists)) ▸ hholds⟩
  have hwords : indexBytes < 2 ^ 32 := by decide
  have hcount : (framesOf lists).length < 2 ^ 32 := by
    have hbytes := h.accounted.within_limit.1
    rw [hframes, h.limit] at hbytes
    exact (Nat.le_mul_of_pos_right _ (by decide)).trans_lt ((hbytes.trans hlimit).trans_lt hwords)
  have hbound : ∀ g, ∀ p ∈ positionsOf g lists, p.1 < (framesOf lists).length :=
    fun g p hp => (mem_positionsOf lists p hp).1
  refine (finish_settles h.accounted (.inl fun g hg => ?_)).imp fun r hr htrue => ?_
  · obtain ⟨s, hs, hholds⟩ := hpositions g (h.groups ▸ hg)
    exact ⟨s, hs, hholds.small horder.ascend (hbound g) hcount⟩
  · have hfinished := hr htrue
    refine ⟨(congrArg Vec.items hfinished.frames).trans hframes, fun g hg calls hcalls => ?_⟩
    obtain ⟨s, hs, hholds⟩ := hpositions g hg
    have hstored := hfinished.stored g s hs
    obtain ⟨hids, hoffs⟩ := hfinished.accounted.stored_le hstored
    have hsmall : ∀ {n : Nat}, n ≤ r.2.limit → n < 2 ^ 32 := fun hn =>
      ((hn.trans_eq (hfinished.limit.trans h.limit)).trans hlimit).trans_lt hwords
    exact (hholds.complete horder.ascend (hbound g) hcount).positionsFrom hstored
      (horder.sound hcount) (hsmall hids) (hsmall hoffs) hcalls

end

end

/-- What an index has of lists: a frame for each list with records, and for each group a cursor
that gives its positions and then nothing. -/
structure Records (checked : Bool) (active : Nat) (lists : List SourceList) (x : Index) : Prop where
  frames : x.frames.items = framesOf lists
  positions : ∀ group < groupCount active, ∀ calls, (positionsOf group lists).length < calls →
    x.positionsFrom checked calls (.fresh group) = .ok (some (positionsOf group lists))

/-- An index that is built of lists in order has them when it is kept. -/
theorem build_records (checked : Bool) {active limit : Nat} (answers : Allocator)
    {lists : List SourceList} (hlimit : limit ≤ indexBytes) (horder : InOrder active lists) :
    ∃ positions, (withLimit active limit answers >>=
      visitAll checked (lists.flatMap SourceList.events) >>= complete) = .ok positions ∧
        ∀ x, positions = some x → Records checked active lists x := by
  have hwalk : Settles (Tracked active limit lists ⟨0, false, []⟩) (fun _ => False)
      (withLimit active limit answers >>= visitAll checked (lists.flatMap SourceList.events)) := by
    refine withLimit_settles.bind fun positions hmade => ?_
    cases positions with
    | none =>
      rw [visitAll_none]
      exact nofun
    | some x => exact Tracks.visitLists hlimit ⟨0, false, []⟩ lists [] x horder (hmade x rfl).tracks
  refine Settles.exists_ok (hwalk.bind fun positions htracked => ?_)
  cases positions with
  | none => exact nofun
  | some x =>
    refine (Tracks.finish checked hlimit horder ⟨0, false, []⟩ (htracked x rfl)).bind fun r hr => ?_
    obtain ⟨kept, y⟩ := r
    rintro z hz
    split at hz
    · next htrue =>
      cases hz
      obtain ⟨hframes, hpositions⟩ := hr htrue
      exact ⟨hframes, hpositions⟩
    · cases hz

/-- **The position streams round-trip.** Lists are handed over in order to a new index whose limit
is no more than `indexBytes`. No difference underflows, no field of the cursor cuts a position and
nothing else goes wrong. When the index is kept, it has the frames of the lists with records, and
for every group of ranks a cursor gives, one call after the other, the first record of the group in
each list that has one, with the number of its frame, and then nothing. -/
theorem positions_recorded (checked : Bool) {active limit : Nat} (answers : Allocator)
    {lists : List SourceList} (hlimit : limit ≤ indexBytes) (horder : InOrder active lists) :
    ∃ positions, (withLimit active limit answers >>=
      visitAll checked (lists.flatMap SourceList.events) >>= complete) = .ok positions ∧
        ∀ x, positions = some x → x.frames.items = framesOf lists ∧
          ∀ group < groupCount active, ∀ calls, (positionsOf group lists).length < calls →
            x.positionsFrom checked calls (.fresh group) =
              .ok (some (positionsOf group lists)) := by
  obtain ⟨positions, hrun, hrecords⟩ := build_records checked answers hlimit horder
  exact ⟨positions, hrun, fun x hx => ⟨(hrecords x hx).frames, (hrecords x hx).positions⟩⟩

/-- A list with a record for each of some ranks. -/
def ranksAt (time : Nat) (ranks : List Nat) : SourceList :=
  ⟨time, false, ranks.map fun rank =>
    ⟨rank, rank, time, 100 * time + rank, .integer 0, false, noRoute⟩⟩

/-- Three lists and one without records, of which two have records in the first group. -/
theorem positions_recorded_three :
    let lists := [ranksAt 0 [3, 9, 70], ranksAt 5 [3, 70, 71], ranksAt 7 [], ranksAt 9 [70]]
    ∃ x, (withLimit 128 (2 ^ 24) (fun _ => some 1) >>=
      visitAll true (lists.flatMap SourceList.events) >>= complete) = .ok (some x) ∧
        x.frames.items = [⟨0, false⟩, ⟨5, false⟩, ⟨9, false⟩] ∧
        x.positionsFrom true 4 (.fresh 0) = .ok (some [(0, 3, 3), (1, 503, 3)]) ∧
        x.positionsFrom true 4 (.fresh 1) = .ok (some [(0, 70, 6), (1, 570, 6), (2, 970, 6)]) := by
  intro lists
  have horder : InOrder 128 lists := ⟨by decide, by decide, by decide, by decide, by decide⟩
  obtain ⟨positions, hrun, hpositions⟩ :=
    positions_recorded true (fun _ => some 1) (by decide : 2 ^ 24 ≤ indexBytes) horder
  have hkept : (withLimit 128 (2 ^ 24) (fun _ => some 1) >>=
      visitAll true (lists.flatMap SourceList.events) >>= complete).toOption.join.isSome := by
    decide +kernel
  rw [hrun] at hkept
  obtain ⟨x, rfl⟩ := Option.isSome_iff_exists.1 hkept
  obtain ⟨hframes, hgives⟩ := hpositions x rfl
  exact ⟨x, hrun, hframes, hgives 0 (by decide) 4 (by decide), hgives 1 (by decide) 4 (by decide)⟩

end Index

end Ondas.Ghw
