import Ondas.Ghw.Turns
import Ondas.Library.Ticks

/-!
# Queries of an index

`Index.query` prepares a read. The ranks of source IDs that ascend in the active table are the
places of these IDs there (`ranksOf_placed`), so that a route of a rank is the place of its ID among
those asked for. On an index of some lists it stands at the first of them (`query_starts`), and so
an indexed read recites the lists (`read_recites`).
-/

namespace Ondas.Ghw

open Library Wire

namespace Index

/-! ## Ranks -/

section
variable {active : Active} {ids ranks : List Nat}

/-- A source ID is at a rank of the active table. -/
def PlacedAt (active : Active) (id rank : Nat) : Prop := ∃ type, active[rank]? = some (id, type)

/-- Source IDs of the active table have ranks. -/
theorem ranksOf_placed (w : Wire) : ∀ {ids : List Nat},
    (∀ id ∈ ids, ∃ type, (id, type) ∈ active) →
      ∃ ranks, ranksOf active ids w = (.ok ranks, w) ∧ List.Forall₂ (PlacedAt active) ids ranks
  | [], _ => ⟨[], rfl, .nil⟩
  | id :: ids, hids => by
    obtain ⟨ranks, hrun, hplaced⟩ := ranksOf_placed w fun id hid => hids id (.tail _ hid)
    obtain ⟨type, hlisted⟩ := hids id (.head _)
    cases hfind : active.findIdx? fun source => source.1 == id with
    | none =>
      have hnone := List.findIdx?_eq_none_iff.1 hfind _ hlisted
      rw [beq_self_eq_true] at hnone
      cases hnone
    | some rank =>
      obtain ⟨hlt, hid, -⟩ := List.findIdx?_eq_some_iff_getElem.1 hfind
      have hget : active[rank]? = some (id, active[rank].2) := by
        rw [List.getElem?_eq_getElem hlt]
        exact congrArg some (Prod.ext (beq_iff_eq.1 hid) rfl)
      refine ⟨rank :: ranks, ?_, .cons ⟨_, hget⟩ hplaced⟩
      unfold ranksOf
      rw [hfind]
      exact Decoder.bind_of_ok hrun

/-- IDs ascend as their ranks do. -/
theorem ids_lt (hactive : active.Pairwise fun x y => x.1 < y.1) {id id' rank rank' : Nat}
    (h : PlacedAt active id rank) (h' : PlacedAt active id' rank') (hlt : rank < rank') :
    id < id' := by
  obtain ⟨type, hget⟩ := h
  obtain ⟨type', hget'⟩ := h'
  obtain ⟨hbound, heq⟩ := List.getElem?_eq_some_iff.1 hget
  obtain ⟨hbound', heq'⟩ := List.getElem?_eq_some_iff.1 hget'
  have hids := List.pairwise_iff_getElem.1 hactive rank rank' hbound hbound' hlt
  rwa [heq, heq'] at hids

/-- A rank has one ID. -/
theorem id_unique {id id' rank : Nat} (h : PlacedAt active id rank)
    (h' : PlacedAt active id' rank) : id = id' := by
  obtain ⟨type, hget⟩ := h
  obtain ⟨type', hget'⟩ := h'
  cases hget.symm.trans hget'
  rfl

/-- Ranks ascend as their IDs do. -/
theorem placed_lt (hactive : active.Pairwise fun x y => x.1 < y.1) {id id' rank rank' : Nat}
    (h : PlacedAt active id rank) (h' : PlacedAt active id' rank') (hlt : id < id') :
    rank < rank' := by
  by_contra hnot
  rcases Nat.lt_or_eq_of_le (Nat.le_of_not_lt hnot) with hless | rfl
  · exact (ids_lt hactive h' h hless).asymm hlt
  · exact hlt.ne (id_unique h h')

/-- The ranks of ascending IDs ascend. -/
theorem placed_ascend (hactive : active.Pairwise fun x y => x.1 < y.1)
    (h : List.Forall₂ (PlacedAt active) ids ranks) (hids : ids.Pairwise (· < ·)) :
    ranks.Pairwise (· < ·) := by
  induction h with
  | nil => exact .nil
  | @cons id rank ids ranks hplaced hrest ih =>
    obtain ⟨hfirst, hids⟩ := List.pairwise_cons.1 hids
    refine List.pairwise_cons.2 ⟨fun rank' hrank' => ?_, ih hids⟩
    obtain ⟨i, hi, rfl⟩ := List.mem_iff_getElem.1 hrank'
    have hlength := hrest.length_eq
    exact placed_lt hactive hplaced (hrest.get (hlength ▸ hi) hi)
      (hfirst _ (List.getElem_mem (hlength ▸ hi)))

/-- Sorting leaves ascending ranks as they are. -/
theorem sortedRanks_ascending (h : ranks.Pairwise (· < ·)) : sortedRanks ranks = ranks := by
  unfold sortedRanks
  rw [(h.imp fun hlt => hlt.le).insertionSort_eq]
  exact List.destutter_of_isChain _ _ (h.imp fun hlt => hlt.ne).isChain

/-- A rank is asked for when its source ID is. -/
theorem mem_ranks (hactive : active.Pairwise fun x y => x.1 < y.1)
    (h : List.Forall₂ (PlacedAt active) ids ranks) {id rank : Nat}
    (hrank : PlacedAt active id rank) : rank ∈ ranks ↔ id ∈ ids := by
  have hlength := h.length_eq
  constructor
  · intro hmem
    obtain ⟨i, hi, rfl⟩ := List.mem_iff_getElem.1 hmem
    rw [id_unique hrank (h.get (hlength ▸ hi) hi)]
    exact List.getElem_mem (hlength ▸ hi)
  · intro hmem
    obtain ⟨i, hi, rfl⟩ := List.mem_iff_getElem.1 hmem
    have hi' : i < ranks.length := hlength ▸ hi
    have hplaced : PlacedAt active ids[i] ranks[i] := h.get hi hi'
    have hsame : rank = ranks[i] := by
      rcases Nat.lt_trichotomy rank ranks[i] with hlt | heq | hgt
      · exact absurd (ids_lt hactive hrank hplaced hlt) (Nat.lt_irrefl _)
      · exact heq
      · exact absurd (ids_lt hactive hplaced hrank hgt) (Nat.lt_irrefl _)
    exact hsame ▸ List.getElem_mem hi'

/-- The place of a rank that is asked for is the place of its source ID. -/
theorem route_placed (h : List.Forall₂ (PlacedAt active) ids ranks) {id rank : Nat}
    (hget : PlacedAt active id rank) (hmem : rank ∈ ranks) :
    ids[ranks.idxOf rank]? = some id := by
  have hlt := List.idxOf_lt_length_of_mem hmem
  have hplaced := h.get (h.length_eq ▸ hlt) hlt
  have hrank : ranks.get ⟨ranks.idxOf rank, hlt⟩ = rank := List.getElem_idxOf hlt
  rw [hrank] at hplaced
  exact List.getElem?_eq_some_iff.2 ⟨h.length_eq ▸ hlt, id_unique hplaced hget⟩

/-- A record that is chosen has the route of its source ID. -/
theorem chosen_route (h : List.Forall₂ (PlacedAt active) ids ranks) {e e' : ScalarEvent}
    (hget : PlacedAt active e.id e.rank) (hchosen : chosen ranks e = some e') :
    ids[e'.route]? = some e.id := by
  unfold chosen at hchosen
  split at hchosen
  · next hmem =>
    cases hchosen
    exact route_placed h hget hmem
  · cases hchosen

end

/-! ## Starts -/

section
variable {checked : Bool} {x : Index} {active : Active} {ranks : List Nat}
  {lists : List SourceList}

/-- A record gives its group a position. -/
theorem streamOf_ne_nil {list : SourceList} {e : ScalarEvent} (he : e ∈ list.records) :
    ∀ {lists : List SourceList} (n : Nat), list ∈ lists →
      streamOf (e.rank / ranksPerGroup) n lists ≠ []
  | first :: lists, n, hlist => by
    rw [streamOf_cons]
    rcases List.mem_cons.1 hlist with rfl | hlist
    · have hsome : (positionOf (e.rank / ranksPerGroup) n list.records).isSome = true :=
        positionOf_isSome.2 ⟨e, he, rfl⟩
      obtain ⟨p, hp⟩ := Option.isSome_iff_exists.1 hsome
      rw [hp]
      exact List.cons_ne_nil _ _
    · exact fun hnil => streamOf_ne_nil he (after n first) hlist (List.append_eq_nil_iff.1 hnil).2

/-- What the index has of a group. -/
theorem Records.group (h : Records checked active.length lists x) {group : Nat}
    (hgroup : group < groupCount active.length) :
    Gives checked x (.fresh group) (streamOf group 0 lists) ∧
      ∃ ids, x.ids.items[group]? = some ids ∧ (ids.items = [] → streamOf group 0 lists = []) := by
  have hgives : Gives checked x (.fresh group) (streamOf group 0 lists) :=
    h.positions group hgroup _ (Nat.lt_succ_self _)
  refine ⟨hgives, ?_⟩
  obtain ⟨next, hadvance, hnext⟩ := exists_of_bind hgives
  obtain ⟨ids, hids, hframe⟩ := exists_of_bind hadvance
  have hids' : item x.ids.items group = .ok ids := hids
  have hget : x.ids.items[group]? = some ids := by
    unfold item at hids'
    cases hfound : x.ids.items[group]? with
    | none => rw [hfound] at hids'; cases hids'
    | some found => rw [hfound] at hids'; cases hids'; rfl
  refine ⟨ids, hget, fun hempty => ?_⟩
  rw [hempty] at hframe
  cases hframe
  exact (Option.some.inj (Except.ok.inj hnext)).symm

/-- **The cursors of a query stand at the first lists.** -/
theorem query_starts (h : Records checked active.length lists x) (hranks : ranks.Pairwise (· < ·))
    (hbound : ∀ rank ∈ ranks, rank < active.length) (hlength : ranks.length ≤ 2 ^ 32) :
    ∃ cursors groups cursors' heap, selectLoop x ranks.length 0 ranks = .ok (some cursors) ∧
      advanceAll checked x (List.range cursors.length) cursors [] = .ok (cursors', heap) ∧
      Standing checked x ranks groups (fun group => streamOf group 0 lists) [] cursors' heap ∧
      Serves ranks groups lists := by
  have hgroups : ∀ rank ∈ ranks, rank / ranksPerGroup < groupCount active.length :=
    fun rank hrank => group_lt (hbound rank hrank)
  have hitems : ∀ rank ∈ ranks, rank / ranksPerGroup < x.ids.items.length := by
    intro rank hrank
    obtain ⟨-, ids, hids, -⟩ := h.group (hgroups rank hrank)
    exact (List.getElem?_eq_some_iff.1 hids).1
  obtain ⟨cursors, hselect, hcursors, hascend, hall⟩ :=
    selectLoop_covers hitems hranks hlength ranks.length [] ranks rfl (Nat.le_refl _) nofun
  have hstanding : Standing checked x ranks (cursors.map fun s => s.cursor.group)
      (fun group => streamOf group 0 lists) (List.range cursors.length) cursors [] := by
    refine ⟨rfl, fun s hs => (hcursors s hs).1, .nil, .nil, nofun, fun slot _ s hs => ?_,
      fun slot s hslot hs => ?_⟩
    · obtain ⟨-, hfresh, rank, hrank, hgroup⟩ := hcursors s (List.mem_of_getElem? hs)
      refine ⟨?_, fun frame => List.not_mem_nil⟩
      rw [hfresh]
      exact (h.group (hgroup ▸ hgroups rank hrank)).1
    · exact absurd (List.mem_range.2 (List.getElem?_eq_some_iff.1 hs).1) hslot
  obtain ⟨cursors', heap, hadvance, hstanding'⟩ := hstanding.advanceAll List.nodup_range
    fun slot hslot => by rwa [List.length_map, ← List.mem_range]
  refine ⟨cursors, _, cursors', heap, hselect, hadvance, hstanding', hranks,
    List.pairwise_map.2 hascend, fun list hlist e he hrank => ?_⟩
  rcases hall e.rank hrank with ⟨s, hs, hgroup⟩ | ⟨ids, hids, hempty⟩
  · exact hgroup ▸ List.mem_map_of_mem hs
  · obtain ⟨-, ids', hids', hnone⟩ := h.group (hgroups e.rank hrank)
    cases hids.symm.trans hids'
    exact absurd (hnone hempty) (streamOf_ne_nil he 0 hlist)

/-- What an indexed read needs that it does not check: all its reservations succeed, and the ranks
are counted in 32 bits. -/
def Granted (reserved : Nat → Bool) (ids : List Nat) : Prop :=
  (∀ i < 4, reserved i = true) ∧ ids.length < 2 ^ 32

/-- A query that is granted stands at the first lists, and any other one is left to the walk. -/
theorem query_stands {ids : List Nat} {w wire : Wire} (h : Records checked active.length lists x)
    (hactive : active.Pairwise fun x y => x.1 < y.1) (hids : ids.Pairwise (· < ·))
    (hlisted : ∀ id ∈ ids, ∃ type, (id, type) ∈ active) (hw : w.place = wire.place) :
    ∃ ranks groups, List.Forall₂ (PlacedAt active) ids ranks ∧ Serves ranks groups lists ∧
      ∀ reserved : Nat → Bool,
        (Granted reserved ids → ∃ r, query checked x reserved active ids w = .ok (some r) ∧
          Turning checked x ranks groups wire 0 lists r ∧ r.current = none) ∧
        (¬ Granted reserved ids → query checked x reserved active ids w = .ok none) := by
  obtain ⟨ranks, hrun, hplaced⟩ := ranksOf_placed w hlisted
  have hlength := hplaced.length_eq
  have hranks := placed_ascend hactive hplaced hids
  have hsorted := sortedRanks_ascending hranks
  have hbound : ∀ rank ∈ ranks, rank < active.length := by
    intro rank hrank
    obtain ⟨i, hi, rfl⟩ := List.mem_iff_getElem.1 hrank
    obtain ⟨type, hget⟩ := hplaced.get (hlength ▸ hi) hi
    exact (List.getElem?_eq_some_iff.1 hget).1
  by_cases hcount : ids.length < 2 ^ 32
  · obtain ⟨cursors, groups, cursors', heap, hselect, hadvance, hstanding, hserves⟩ :=
      query_starts h hranks hbound (hlength ▸ hcount.le)
    have hquery : ∀ reserved : Nat → Bool, query checked x reserved active ids w =
        if !reserved 0 then .ok none
        else if 2 ^ 32 ≤ ranks.length ∨ !reserved 1 then .ok none
        else if !reserved 2 then .ok none
        else if !reserved 3 then .ok none
        else .ok (some ⟨w, cursors', heap, none⟩) := by
      intro reserved
      unfold query
      rw [hrun]
      dsimp only
      rw [hsorted, hselect]
      dsimp only
      rw [hadvance]
    have hfits : ¬ 2 ^ 32 ≤ ranks.length := hlength ▸ hcount.not_ge
    refine ⟨ranks, groups, hplaced, hserves, fun reserved => ?_⟩
    rw [hquery reserved]
    refine ⟨fun hgranted => ?_, fun hnot => ?_⟩
    · have hreserved : ∀ i < 4, ¬ (!reserved i) = true := fun i hi => by
        rw [hgranted.1 i hi]
        exact Bool.false_ne_true
      rw [if_neg (hreserved 0 (by decide)),
        if_neg (not_or.2 ⟨hfits, hreserved 1 (by decide)⟩), if_neg (hreserved 2 (by decide)),
        if_neg (hreserved 3 (by decide))]
      exact ⟨_, rfl, ⟨hstanding, h.frames, hw⟩, rfl⟩
    · -- One of the four reservations fails.
      obtain ⟨i, hi, hfalse⟩ : ∃ i < 4, reserved i = false := by
        by_contra hall
        refine hnot ⟨fun i hi => ?_, hcount⟩
        by_contra hne
        exact hall ⟨i, hi, Bool.eq_false_iff.2 hne⟩
      have hcases : i = 0 ∨ i = 1 ∨ i = 2 ∨ i = 3 := by omega
      rcases hcases with rfl | rfl | rfl | rfl <;> rw [hfalse] <;> simp
  · refine ⟨ranks, List.range (groupCount active.length), hplaced,
      ⟨hranks, List.pairwise_lt_range, fun list hlist e he hrank =>
        List.mem_range.2 (group_lt (hbound e.rank hrank))⟩, fun reserved =>
      ⟨fun hgranted => absurd hgranted.2 hcount, fun _ => ?_⟩⟩
    have hfull : 2 ^ 32 ≤ ranks.length ∨ (!reserved 1) = true :=
      .inl (hlength ▸ Nat.le_of_not_lt hcount)
    unfold query
    rw [hrun]
    dsimp only
    rw [hsorted, if_pos hfull, ite_self]

/-- An indexed read hands some events to any visitor, and returns its break. One that is not granted
hands over nothing, and is left to the walk. -/
def Reads (checked : Bool) (x : Index) (t : Types) (active : Active) (ids : List Nat) (stop : Nat)
    (w : Wire) (events : List Event) : Prop :=
  ∀ (reserved : Nat → Bool) {σ B : Type} (visitor : σ → Event → σ × ControlFlow B) (c : σ),
    (Granted reserved ids →
      (read checked x reserved t active ids stop visitor c w).1 =
          (Library.visit visitor c events).1 ∧
        (read checked x reserved t active ids stop visitor c w).2 =
          .ok (some (Library.visit visitor c events).2)) ∧
    (¬ Granted reserved ids →
      read checked x reserved t active ids stop visitor c w = (c, .ok none))

/-- **An indexed read recites the lists**: the selected records of the lists up to the end. -/
theorem read_recites {t : Types} {ids : List Nat} {w wire : Wire}
    (h : Records checked active.length lists x)
    (hlaid : ∀ list ∈ lists, ∃ start ends,
      Laid t active wire list.time list.cyclic start 0 list.records ends)
    (hactive : active.Pairwise fun x y => x.1 < y.1) (hids : ids.Pairwise (· < ·))
    (hlisted : ∀ id ∈ ids, ∃ type, (id, type) ∈ active) (hw : w.place = wire.place) :
    ∃ ranks groups, List.Forall₂ (PlacedAt active) ids ranks ∧ Serves ranks groups lists ∧
      ∀ stop, Reads checked x t active ids stop w (recited ranks groups stop none lists) := by
  obtain ⟨ranks, groups, hplaced, hserves, hquery⟩ := query_stands h hactive hids hlisted hw
  refine ⟨ranks, groups, hplaced, hserves, fun stop reserved σ B visitor c => ⟨fun hgranted => ?_,
    fun hnot => ?_⟩⟩
  · obtain ⟨r, hstart, hturning, hcurrent⟩ := (hquery reserved).1 hgranted
    have hfuel : (framesOf lists).length < x.frames.items.length + 1 := by
      rw [h.frames]
      exact Nat.lt_succ_self _
    have hdrive := hturning.drive stop visitor hserves hlaid hfuel c
    unfold read
    rw [hstart]
    dsimp only
    rw [hdrive, hcurrent]
    rcases Library.visit visitor c (recited ranks groups stop none lists) with ⟨c', _ | value⟩ <;>
      exact ⟨rfl, rfl⟩
  · unfold read
    rw [(hquery reserved).2 hnot]

end

end Index

end Ondas.Ghw
