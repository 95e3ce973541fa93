import Ondas.Ghw.Scan

/-!
# The cursors of a query

A query has a cursor for each group of its ranks, with a mask of the ranks and the route of the
first one (`selectLoop_covers`). A group that the index has nothing of has no cursor.

The cursors that have a position stand in a heap by its frame. What a cursor gives from there on is
a list of positions (`Gives`), and `Standing` says that every cursor stands at the first one of its
group's list, but for those that have to be moved on. Moving them on keeps it, one cursor after the
other (`Standing.advanceAll`).
-/

namespace Ondas.Ghw

open Library Wire

namespace Index

/-! ## Cursors -/

section
variable {x : Index} {ranks : List Nat}

/-- A mask has a bit for each of its ranks. -/
theorem testBit_maskOf {base : Nat} (hbase : ∀ rank ∈ ranks, base ≤ rank) (i : Nat) :
    (maskOf base ranks).testBit i = decide (base + i ∈ ranks) := by
  have hfold : ∀ mask : Nat,
      (ranks.foldl (fun mask rank => mask ||| 1 <<< (rank - base)) mask).testBit i =
        (mask.testBit i || decide (base + i ∈ ranks)) := by
    induction ranks with
    | nil => exact fun mask => (Bool.or_false _).symm
    | cons rank ranks ih =>
      intro mask
      have hle := hbase rank (.head _)
      have hsame : decide (rank - base = i) = decide (base + i = rank) :=
        decide_eq_decide.2 (by omega)
      rw [List.foldl_cons, ih fun rank hrank => hbase rank (.tail _ hrank), Nat.testBit_or,
        Nat.one_shiftLeft, Nat.testBit_two_pow, hsame, Bool.or_assoc, ← Bool.decide_or]
      exact congrArg _ (decide_eq_decide.2 List.mem_cons.symm)
  rw [maskOf, hfold, Nat.zero_testBit, Bool.false_or]

/-- The last of ascending ranks is the largest. -/
theorem le_getLastD {rank : Nat} (hsorted : (rank :: ranks).Pairwise (· < ·)) :
    ∀ other ∈ rank :: ranks, other ≤ ranks.getLastD rank := by
  induction ranks generalizing rank with
  | nil => exact fun other hother => (List.mem_singleton.1 hother).le
  | cons next ranks ih =>
    obtain ⟨hfirst, hrest⟩ := List.pairwise_cons.1 hsorted
    intro other hother
    rw [List.getLastD_cons]
    rcases List.mem_cons.1 hother with rfl | hother
    · exact (hfirst next (.head _)).le.trans (ih hrest next (.head _))
    · exact ih hrest other hother

/-- The groups of ascending ranks do not descend. -/
theorem group_mono {rank other : Nat} (h : rank ≤ other) :
    rank / ranksPerGroup ≤ other / ranksPerGroup := Nat.div_le_div_right h

/-- The cursor of a group covers its ranks, which lie between those of lower and of higher groups.
-/
theorem covers_group {front same above : List Nat} {rank : Nat}
    (hranks : ranks = front ++ rank :: (same ++ above)) (hsorted : ranks.Pairwise (· < ·))
    (hfront : ∀ other ∈ front, other / ranksPerGroup < rank / ranksPerGroup)
    (hsame : ∀ other ∈ same, other / ranksPerGroup = rank / ranksPerGroup)
    (habove : ∀ other ∈ above, rank / ranksPerGroup < other / ranksPerGroup) :
    Covers ranks (.of front.length rank same) := by
  have hmembers : ∀ other ∈ rank :: same, other / ranksPerGroup = rank / ranksPerGroup := by
    intro other hother
    rcases List.mem_cons.1 hother with rfl | hother
    · rfl
    · exact hsame other hother
  have hmem : ∀ other, other / ranksPerGroup = rank / ranksPerGroup →
      (other ∈ ranks ↔ other ∈ rank :: same) := by
    intro other hgroup
    rw [hranks, ← List.cons_append, List.mem_append, List.mem_append]
    refine ⟨fun h => ?_, fun h => .inr (.inl h)⟩
    rcases h with h | h | h
    · exact absurd hgroup (hfront other h).ne
    · exact h
    · exact absurd hgroup (habove other h).ne'
  have hbase : ∀ other, rank / ranksPerGroup ≤ other / ranksPerGroup ↔
      rank / ranksPerGroup * ranksPerGroup ≤ other :=
    fun other => Nat.le_div_iff_mul_le (by decide)
  refine ⟨fun i hi => ?_, ?_, fun other hother hgroup => ?_⟩
  · have hgroup : (rank / ranksPerGroup * ranksPerGroup + i) / ranksPerGroup =
        rank / ranksPerGroup := by
      rw [Nat.mul_comm, Nat.mul_add_div (by decide), Nat.div_eq_of_lt hi, Nat.add_zero]
    exact (testBit_maskOf (fun other hother => (hbase other).1 (hmembers other hother).ge) i).trans
      (decide_eq_decide.2 (hmem _ hgroup).symm)
  · show front.length = ranks.countP fun other =>
      decide (other < rank / ranksPerGroup * ranksPerGroup)
    have hlow : front.countP (fun other =>
        decide (other < rank / ranksPerGroup * ranksPerGroup)) = front.length := by
      refine List.countP_eq_length.2 fun other hother => decide_eq_true ?_
      exact Nat.lt_of_not_le fun h => absurd ((hbase other).2 h) (hfront other hother).not_ge
    have hhigh : (rank :: (same ++ above)).countP (fun other =>
        decide (other < rank / ranksPerGroup * ranksPerGroup)) = 0 := by
      refine List.countP_eq_zero.2 fun other hother => ?_
      rw [decide_eq_true_eq, Nat.not_lt, ← hbase]
      rw [← List.cons_append] at hother
      rcases List.mem_append.1 hother with hother | hother
      · exact (hmembers other hother).ge
      · exact (habove other hother).le
    rw [hranks, List.countP_append, hlow, hhigh, Nat.add_zero]
  · have hascending : (rank :: same).Pairwise (· < ·) := by
      rw [hranks, ← List.cons_append] at hsorted
      exact (List.pairwise_append.1 (List.pairwise_append.1 hsorted).2.1).1
    exact le_getLastD hascending other ((hmem other hgroup).1 hother)

/-- **A query has a cursor for each group** that its ranks are in, in order of the groups, unless
the index has nothing of it. By induction on the groups: `front` are the ranks of those before. -/
theorem selectLoop_covers (hgroups : ∀ rank ∈ ranks, rank / ranksPerGroup < x.ids.items.length)
    (hsorted : ranks.Pairwise (· < ·)) (hlength : ranks.length ≤ 2 ^ 32) (left : Nat) :
    ∀ front back : List Nat, ranks = front ++ back → back.length ≤ left →
      (∀ rank ∈ front, ∀ other ∈ back, rank / ranksPerGroup < other / ranksPerGroup) →
      ∃ cursors, selectLoop x left front.length back = .ok (some cursors) ∧
        (∀ s ∈ cursors, Covers ranks s ∧ s.cursor = .fresh s.cursor.group ∧
          ∃ rank ∈ back, rank / ranksPerGroup = s.cursor.group) ∧
        (cursors.Pairwise fun s s' => s.cursor.group < s'.cursor.group) ∧
        ∀ rank ∈ back, (∃ s ∈ cursors, s.cursor.group = rank / ranksPerGroup) ∨
          ∃ ids, x.ids.items[rank / ranksPerGroup]? = some ids ∧ ids.items = [] := by
  induction left with
  | zero =>
    intro front back _ hleft _
    obtain rfl := List.length_eq_zero_iff.1 (Nat.le_zero.1 hleft)
    exact ⟨[], rfl, nofun, .nil, nofun⟩
  | succ left ih =>
    intro front back hranks hleft hfront
    cases back with
    | nil => exact ⟨[], rfl, nofun, .nil, nofun⟩
    | cons rank rest =>
      have hback : (rank :: rest).Pairwise (· < ·) := by
        rw [hranks] at hsorted
        exact (List.pairwise_append.1 hsorted).2.1
      obtain ⟨hfirst, hrest⟩ := List.pairwise_cons.1 hback
      have hgroups' : rest.Pairwise fun a b => a / ranksPerGroup ≤ b / ranksPerGroup :=
        hrest.imp fun hlt => group_mono hlt.le
      obtain ⟨below, same, above, hparted⟩ := exists_parted hgroups' (rank / ranksPerGroup)
      have hnone : below = [] := by
        refine List.eq_nil_iff_forall_not_mem.2 fun other hother => ?_
        have hmem : other ∈ rest := hparted.eq ▸ List.mem_append_left _ hother
        exact absurd (hparted.below other hother) (group_mono (hfirst other hmem).le).not_gt
      have hsame := hparted.takeWhile_equal
      subst hnone
      rw [List.length_nil, List.drop_zero] at hsame
      have hparts : rest = same ++ above := hparted.eq
      have hdrop : rest.drop same.length = above := by rw [hparts, List.drop_left]
      have hposition : ¬ 2 ^ 32 ≤ front.length := by
        rw [hranks, List.length_append, List.length_cons] at hlength
        omega
      obtain ⟨ids, hids⟩ : ∃ ids, x.ids.items[rank / ranksPerGroup]? = some ids :=
        ⟨_, List.getElem?_eq_getElem (hgroups rank (hranks ▸ List.mem_append_right _ (.head _)))⟩
      have hcovers := covers_group (hranks.trans (by rw [hparts])) hsorted
        (fun other hother => hfront other hother rank (.head _)) hparted.equal hparted.above
      obtain ⟨cursors, hrun, hcursors, hascend, hall⟩ := ih (front ++ rank :: same) above
        (by rw [hranks, hparts, List.append_assoc, List.cons_append])
        (by
          rw [hparts, List.length_cons, List.length_append] at hleft
          omega)
        (fun other hother last hlast => by
          have hlt := hparted.above last hlast
          rcases List.mem_append.1 hother with hother | hother
          · exact hfront other hother last (hparts ▸ .tail _ (List.mem_append_right _ hlast))
          rcases List.mem_cons.1 hother with rfl | hother
          · exact hlt
          · rwa [hparted.equal other hother])
      have hlengths : (front ++ rank :: same).length = front.length + 1 + same.length := by
        rw [List.length_append, List.length_cons]
        omega
      rw [hlengths] at hrun
      have hstep : selectLoop x (left + 1) front.length (rank :: rest) =
          .ok (some (if ids.items.isEmpty then cursors else
            .of front.length rank same :: cursors)) := by
        unfold selectLoop
        dsimp only
        rw [if_neg hposition, hsame, hdrop, item, hids, hrun]
        show Except.ok (if ids.items.isEmpty then some cursors else
          some (.of front.length rank same :: cursors)) = _
        cases ids.items.isEmpty <;> rfl
      have hmem : ∀ {other : Nat}, other ∈ above → other ∈ rank :: rest :=
        fun hother => .tail _ (hparts ▸ List.mem_append_right _ hother)
      rw [hstep]
      refine ⟨_, rfl, ?_⟩
      cases hempty : ids.items.isEmpty with
      | true =>
        rw [if_pos rfl]
        refine ⟨fun s hs => ?_, hascend, fun other hother => ?_⟩
        · obtain ⟨hcovers, hfresh, other, hother, hgroup⟩ := hcursors s hs
          exact ⟨hcovers, hfresh, other, hmem hother, hgroup⟩
        · have hnothing : ∃ ids, x.ids.items[rank / ranksPerGroup]? = some ids ∧ ids.items = [] :=
            ⟨ids, hids, List.isEmpty_iff.1 hempty⟩
          rcases List.mem_cons.1 hother with rfl | hother
          · exact .inr hnothing
          · rcases List.mem_append.1 (hparts ▸ hother) with hother | hother
            · exact .inr (hparted.equal other hother ▸ hnothing)
            · exact hall other hother
      | false =>
        rw [if_neg Bool.false_ne_true]
        refine ⟨fun s hs => ?_, List.pairwise_cons.2 ⟨fun s hs => ?_, hascend⟩, ?_⟩
        · rcases List.mem_cons.1 hs with rfl | hs
          · exact ⟨hcovers, rfl, rank, .head _, rfl⟩
          · obtain ⟨hcovers, hfresh, other, hother, hgroup⟩ := hcursors s hs
            exact ⟨hcovers, hfresh, other, hmem hother, hgroup⟩
        · obtain ⟨-, -, other, hother, hgroup⟩ := hcursors s hs
          exact hgroup ▸ hparted.above other hother
        · intro other hother
          have hcursor : ∀ {group : Nat}, group = rank / ranksPerGroup → ∃ s ∈
              Selected.of front.length rank same :: cursors, s.cursor.group = group :=
            fun hgroup => ⟨_, .head _, hgroup.symm⟩
          rcases List.mem_cons.1 hother with rfl | hother
          · exact .inl (hcursor rfl)
          · rcases List.mem_append.1 (hparts ▸ hother) with hother | hother
            · exact .inl (hcursor (hparted.equal other hother))
            · rcases hall other hother with ⟨s, hs, hgroup⟩ | hnothing
              · exact .inl ⟨s, .tail _ hs, hgroup⟩
              · exact .inr hnothing

end

/-! ## The heap -/

section
variable {checked : Bool} {x : Index} {c : Cursor} {p : Nat × Nat × Nat}
  {ps : List (Nat × Nat × Nat)}

/-- What a cursor gives from here on, before it returns false. -/
def Gives (checked : Bool) (x : Index) (c : Cursor) (ps : List (Nat × Nat × Nat)) : Prop :=
  x.positionsFrom checked (ps.length + 1) c = .ok (some ps)

/-- Both halves of `Index::advance` leave a cursor in its group. -/
theorem nextFrame_group {ids : List UInt8} {c' : Cursor} {place : Nat}
    (h : nextFrame checked ids c = .ok (some (c', place))) : c'.group = c.group := by
  unfold nextFrame at h
  split at h
  · split at h
    · obtain ⟨frame, -, hpure⟩ := exists_of_bind h
      cases hpure
      rfl
    · split at h
      · cases h
      · split at h
        · cases h
        · split at h
          · cases h
          · split at h
            · cases h
            · split at h
              · cases h
              · obtain ⟨frame, -, hpure⟩ := exists_of_bind h
                cases hpure
                rfl
  · split at h
    · cases h
    · split at h
      · cases h
      · cases h
        rfl

theorem nextPosition_group {offs : List UInt8} {c' : Cursor}
    (h : nextPosition checked offs c = .ok (some c')) : c'.group = c.group := by
  unfold nextPosition at h
  split at h
  · cases h
  · split at h
    · cases h
    · split at h
      · cases h
      · obtain ⟨offset, -, h⟩ := exists_of_bind h
        obtain ⟨position, -, hpure⟩ := exists_of_bind h
        cases hpure
        rfl

/-- A cursor stays in its group. -/
theorem advance_group {c' : Cursor} (h : x.advance checked c = .ok (some c')) :
    c'.group = c.group := by
  obtain ⟨ids, -, h⟩ := exists_of_bind h
  obtain ⟨next, hnext, h⟩ := exists_of_bind h
  cases next with
  | none => cases h
  | some next =>
    obtain ⟨c₁, place⟩ := next
    obtain ⟨position, -, h⟩ := exists_of_bind h
    obtain ⟨offs, -, h⟩ := exists_of_bind h
    have hgroup : c₁.group = c.group := nextFrame_group hnext
    exact (nextPosition_group h).trans hgroup

/-- A cursor without further positions. -/
theorem Gives.advance_nil (h : Gives checked x c []) : x.advance checked c = .ok none := by
  unfold Gives at h
  obtain ⟨next, hadvance, h⟩ := exists_of_bind h
  cases next with
  | none => exact hadvance
  | some c' => cases h

/-- A cursor gives the next position, and then the others. -/
theorem Gives.advance_cons (h : Gives checked x c (p :: ps)) :
    ∃ c', x.advance checked c = .ok (some c') ∧ (c'.frame, c'.offset, c'.first) = p ∧
      c'.group = c.group ∧ Gives checked x c' ps := by
  unfold Gives at h
  obtain ⟨next, hadvance, h⟩ := exists_of_bind h
  cases next with
  | none => cases h
  | some c' =>
    obtain ⟨rest, hrest, hpure⟩ := exists_of_bind h
    cases rest with
    | none => cases hpure
    | some rest =>
      cases hpure
      exact ⟨c', hadvance, rfl, advance_group hadvance, hrest⟩

/-- Where a cursor stands: at a position that the heap has its frame of, or past the last one. -/
structure Placed (checked : Bool) (x : Index) (heap : List (Nat × Nat)) (slot : Nat) (c : Cursor)
    (ps : List (Nat × Nat × Nat)) : Prop where
  entries : ∀ frame, (frame, slot) ∈ heap ↔ ∃ p ∈ ps.head?, frame = p.1
  gives : ∀ p rest, ps = p :: rest → (c.frame, c.offset, c.first) = p ∧ Gives checked x c rest

/-- The cursors of a query and its heap. Those in the slots of `todo` have to be moved on. -/
structure Standing (checked : Bool) (x : Index) (ranks groups : List Nat)
    (streams : Nat → List (Nat × Nat × Nat)) (todo : List Nat) (cursors : List Selected)
    (heap : List (Nat × Nat)) : Prop where
  groups : cursors.map (fun s => s.cursor.group) = groups
  covers : ∀ s ∈ cursors, Covers ranks s
  sorted : heap.Pairwise Sooner
  nodup : heap.Nodup
  slots : ∀ entry ∈ heap, entry.2 < cursors.length
  waiting : ∀ slot ∈ todo, ∀ s, cursors[slot]? = some s →
    Gives checked x s.cursor (streams s.cursor.group) ∧ ∀ frame, (frame, slot) ∉ heap
  placed : ∀ slot s, slot ∉ todo → cursors[slot]? = some s →
    Placed checked x heap slot s.cursor (streams s.cursor.group)

variable {ranks groups todo : List Nat} {streams : Nat → List (Nat × Nat × Nat)} {slot : Nat}
  {cursors : List Selected} {heap : List (Nat × Nat)} {s : Selected}

instance : Std.Total Sooner where
  total a b := by
    unfold Sooner
    omega

instance : IsTrans (Nat × Nat) Sooner where
  trans a b c hab hbc := by
    unfold Sooner at hab hbc ⊢
    omega

/-- A cursor that is moved on covers the same ranks. -/
theorem Covers.moved {c' : Cursor} (h : Covers ranks s) (hgroup : c'.group = s.cursor.group) :
    Covers ranks { s with cursor := c' } :=
  ⟨hgroup ▸ h.mask, hgroup ▸ h.firstRoute, hgroup ▸ h.last⟩

/-- A cursor that is moved on is in the heap again, unless it has no further position. -/
theorem Standing.advance
    (h : Standing checked x ranks groups streams (slot :: todo) cursors heap)
    (hs : cursors[slot]? = some s) (hslot : slot ∉ todo) :
    (x.advance checked s.cursor = .ok none ∧
        Standing checked x ranks groups streams todo cursors heap) ∨
      ∃ c', x.advance checked s.cursor = .ok (some c') ∧
        Standing checked x ranks groups streams todo (cursors.set slot { s with cursor := c' })
          (heap.orderedInsert Sooner (c'.frame, slot)) := by
  obtain ⟨hgives, hfree⟩ := h.waiting slot (.head _) s hs
  obtain ⟨hlt, hget⟩ := List.getElem?_eq_some_iff.1 hs
  have hother : ∀ {other : Nat}, other ∉ todo → other ≠ slot → other ∉ slot :: todo :=
    fun hmem hne hcons => (List.mem_cons.1 hcons).elim hne hmem
  cases hstream : streams s.cursor.group with
  | nil =>
    rw [hstream] at hgives
    refine .inl ⟨hgives.advance_nil, { h with
      waiting := fun other hmem => h.waiting other (.tail _ hmem), placed := ?_ }⟩
    intro other s' hmem hs'
    by_cases hsame : other = slot
    · subst hsame
      cases Option.some.inj (hs.symm.trans hs')
      rw [hstream]
      exact ⟨fun frame => iff_of_false (hfree frame) (by rintro ⟨p, hp, -⟩; cases hp), nofun⟩
    · exact h.placed other s' (hother hmem hsame) hs'
  | cons p rest =>
    rw [hstream] at hgives
    obtain ⟨c', hadvance, hp, hgroup, hgives'⟩ := hgives.advance_cons
    have hperm := List.perm_orderedInsert Sooner (c'.frame, slot) heap
    have hmem : ∀ {entry}, entry ∈ heap.orderedInsert Sooner (c'.frame, slot) ↔
        entry = (c'.frame, slot) ∨ entry ∈ heap := List.mem_orderedInsert Sooner
    have hset : ∀ other, other ≠ slot →
        (cursors.set slot { s with cursor := c' })[other]? = cursors[other]? :=
      fun other hne => List.getElem?_set_ne hne.symm
    have hentry : ∀ other frame, other ≠ slot →
        ((frame, other) ∈ heap.orderedInsert Sooner (c'.frame, slot) ↔ (frame, other) ∈ heap) :=
      fun other frame hne => hmem.trans
        (or_iff_right fun heq => hne (congrArg Prod.snd heq))
    refine .inr ⟨c', hadvance, ?_, ?_, h.sorted.orderedInsert _ _, ?_, ?_, ?_, ?_⟩
    · rw [← h.groups, List.map_set, hgroup]
      refine List.ext_getElem? fun i => ?_
      by_cases hi : i = slot
      · rw [hi, List.getElem?_set_self (by rwa [List.length_map]), List.getElem?_map, hs]
        rfl
      · rw [List.getElem?_set_ne (Ne.symm hi)]
    · intro s' hs'
      rcases List.mem_or_eq_of_mem_set hs' with hs' | rfl
      · exact h.covers s' hs'
      · exact (h.covers s (List.mem_of_getElem? hs)).moved hgroup
    · exact hperm.nodup_iff.2 (List.nodup_cons.2 ⟨hfree _, h.nodup⟩)
    · intro entry hentry'
      rw [List.length_set]
      rcases hmem.1 hentry' with rfl | hentry'
      · exact hlt
      · exact h.slots entry hentry'
    · intro other hother' s' hs'
      have hne : other ≠ slot := fun heq => hslot (heq ▸ hother')
      rw [hset other hne] at hs'
      obtain ⟨hgives, hfree⟩ := h.waiting other (.tail _ hother') s' hs'
      exact ⟨hgives, fun frame => (hentry other frame hne).not.2 (hfree frame)⟩
    · intro other s' hother' hs'
      by_cases hsame : other = slot
      · subst hsame
        rw [List.getElem?_set_self hlt] at hs'
        cases hs'
        have hstream' : streams ({ s with cursor := c' } : Selected).cursor.group = p :: rest :=
          (congrArg streams hgroup).trans hstream
        rw [hstream']
        refine ⟨fun frame => ?_, ?_⟩
        · rw [hmem, or_iff_left (hfree frame)]
          have hframe : c'.frame = p.1 := congrArg Prod.fst hp
          constructor
          · exact fun heq => ⟨p, rfl, (congrArg Prod.fst heq).trans hframe⟩
          · rintro ⟨q, hq, rfl⟩
            cases hq
            rw [hframe]
        · rintro q rest' heq
          cases heq
          exact ⟨hp, hgives'⟩
      · rw [hset other hsame] at hs'
        obtain ⟨hentries, hgives⟩ := h.placed other s' (hother hother' hsame) hs'
        exact ⟨fun frame => (hentry other frame hsame).trans (hentries frame), hgives⟩

/-- **Cursors are moved on one after the other**, by induction on their slots. -/
theorem Standing.advanceAll : ∀ {todo : List Nat} {cursors : List Selected}
    {heap : List (Nat × Nat)}, Standing checked x ranks groups streams todo cursors heap →
      todo.Nodup → (∀ slot ∈ todo, slot < groups.length) →
      ∃ cursors' heap', advanceAll checked x todo cursors heap = .ok (cursors', heap') ∧
        Standing checked x ranks groups streams [] cursors' heap'
  | [], cursors, heap, h, _, _ => ⟨cursors, heap, rfl, h⟩
  | slot :: todo, cursors, heap, h, hnodup, hslots => by
    obtain ⟨hslot, hnodup⟩ := List.nodup_cons.1 hnodup
    have hlength : cursors.length = groups.length := by rw [← h.groups, List.length_map]
    obtain ⟨s, hs⟩ : ∃ s, cursors[slot]? = some s :=
      ⟨_, List.getElem?_eq_getElem (hlength ▸ hslots slot (.head _))⟩
    have hslots' : ∀ slot ∈ todo, slot < groups.length :=
      fun slot hmem => hslots slot (.tail _ hmem)
    unfold Index.advanceAll
    rw [item, hs]
    rcases h.advance hs hslot with ⟨hadvance, h⟩ | ⟨c', hadvance, h⟩
    · obtain ⟨cursors', heap', hrun, h'⟩ := h.advanceAll hnodup hslots'
      refine ⟨cursors', heap', ?_, h'⟩
      rw [← hrun]
      show (x.advance checked s.cursor >>= _) = _
      rw [hadvance]
      rfl
    · obtain ⟨cursors', heap', hrun, h'⟩ := h.advanceAll hnodup hslots'
      refine ⟨cursors', heap', ?_, h'⟩
      rw [← hrun]
      show (x.advance checked s.cursor >>= _) = _
      rw [hadvance]
      rfl

end

end Index

end Ondas.Ghw
