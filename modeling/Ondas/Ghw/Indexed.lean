import Ondas.Ghw.Queries
import Ondas.Ghw.Reports

/-!
# Indexed reads and the walk

An indexed read and the walk hand over other events: the walk has all scalars of the body, list by
list, and the read those of the selection, time by time. Both end each time before the next one
(`closes_spelled`, `closes_recited`), and the scalars of the read are those of the walk that are
selected (`scalars_recited`). So the consumer of a reader reports the same of both
(`indexed_eq_walk`).
-/

namespace Ondas.Ghw

open Library Wire

namespace Index

section
variable {ranks groups : List Nat} {stop : Nat} {lists : List SourceList} {list : SourceList}
  {pending current : Option Nat} {events : List Event} {records : List ScalarEvent} {time : Nat}

open Assembly

/-! ## Scalars -/

/-- The scalars of events one after the other. -/
theorem scalars_append (events more : List Event) : (events ++ more).filterMap scalarOf =
    events.filterMap scalarOf ++ more.filterMap scalarOf := List.filterMap_append

@[simp] theorem scalars_map (records : List ScalarEvent) :
    (records.map Event.scalar).filterMap scalarOf = records := by
  rw [List.filterMap_map]
  exact List.filterMap_some

@[simp] theorem scalars_closing (current : Option Nat) :
    (closing current).filterMap scalarOf = [] := by cases current <;> rfl

@[simp] theorem scalars_passed (current : Option Nat) (time : Nat) :
    (passed current time).filterMap scalarOf = [] := by
  unfold passed
  cases current.filter fun previous => decide (previous ≠ time) <;> rfl

/-- The walk hands over all records. -/
theorem scalars_spelled : ∀ (lists : List SourceList) (current : Option Nat),
    (spelled current lists).filterMap scalarOf = lists.flatMap SourceList.records
  | [], current => by cases current <;> rfl
  | list :: lists, current => by
    have hended : ([.listEnd list.time] : List Event).filterMap scalarOf = [] := rfl
    rw [spelled, scalars_append, scalars_append, scalars_passed, SourceList.events, scalars_append,
      scalars_map, hended, List.append_nil, List.nil_append, scalars_spelled lists,
      List.flatMap_cons]

/-- **An indexed read hands over the selected records up to its end**, by induction on the lists. -/
theorem scalars_recited : ∀ {lists : List SourceList} (current : Option Nat),
    Serves ranks groups lists → lists.Pairwise (fun a b => a.time ≤ b.time) →
    (recited ranks groups stop current lists).filterMap scalarOf =
      ((lists.filter fun list => decide (list.time ≤ stop)).flatMap
        SourceList.records).filterMap (chosen ranks)
  | [], current, _, _ => scalars_closing current
  | list :: lists, current, hserves, htimes => by
    obtain ⟨hfirst, htimes⟩ := List.pairwise_cons.1 htimes
    rw [recited, List.filter_cons]
    cases htouches : touches groups list with
    | false =>
      rw [if_neg Bool.false_ne_true, scalars_recited current hserves.tail htimes]
      have hnone : list.records.filterMap (chosen ranks) = [] := by
        refine List.filterMap_eq_nil_iff.2 fun e he => if_neg fun hmem => ?_
        have hgroup := List.any_eq_false.1 htouches e he
        exact hgroup (decide_eq_true (hserves.served list (.head _) e he hmem))
      split
      · rw [List.flatMap_cons, List.filterMap_append, hnone, List.nil_append]
      · rfl
    | true =>
      rw [if_pos rfl]
      by_cases hstop : stop < list.time
      · have hlater : (lists.filter fun list => decide (list.time ≤ stop)) = [] :=
          List.filter_eq_nil_iff.2 fun later hlater hle =>
            (hstop.trans_le (hfirst later hlater)).not_ge (of_decide_eq_true hle)
        rw [if_pos hstop, if_neg (by simpa using hstop), hlater]
        exact scalars_closing current
      · rw [if_neg hstop, if_pos (decide_eq_true (Nat.le_of_not_lt hstop)), scalars_append,
          scalars_append, scalars_closing, List.nil_append, scalars_map,
          scalars_recited _ hserves.tail htimes, List.flatMap_cons, List.filterMap_append]

/-! ## Ends -/

/-- Scalars of one time, and events after which that time ends. -/
theorem closes_scalars : ∀ {records : List ScalarEvent} {pending : Option Nat},
    (∀ e ∈ records, e.time = time) → (∀ previous ∈ pending, previous = time) →
    Closes (some time) events → Closes pending (records.map Event.scalar ++ events)
  | [], none, _, _, h => h.weaken
  | [], some previous, _, hpending, h => by
    cases hpending previous rfl
    exact h
  | e :: records, pending, htimes, hpending, h => by
    have htime := htimes e (.head _)
    refine ⟨fun previous hprevious => htime.trans (hpending previous hprevious).symm, ?_⟩
    exact closes_scalars (fun e he => htimes e (.tail _ he))
      (fun previous hprevious => (Option.some.inj hprevious).symm.trans htime) h

/-- The walk ends each list. -/
theorem closes_spelled {lists : List SourceList} (current : Option Nat)
    (htimes : ∀ list ∈ lists, ∀ e ∈ list.records, e.time = list.time) :
    Closes none (spelled current lists) := by
  induction lists generalizing current with
  | nil => cases current <;> rfl
  | cons list lists ih =>
    have hrest := ih (some list.time) fun list hlist => htimes list (.tail _ hlist)
    have hlist : Closes none (list.events ++ spelled (some list.time) lists) := by
      rw [SourceList.events, List.append_assoc]
      refine closes_scalars (htimes list (.head _)) (fun _ h => by cases h) ⟨?_, hrest⟩
      exact fun previous hprevious => Option.some.inj hprevious
    rw [spelled, passed]
    cases current.filter fun previous => decide (previous ≠ list.time) <;> exact hlist

/-- An indexed read ends each time. -/
theorem closes_recited {lists : List SourceList} (current : Option Nat)
    (htimes : ∀ list ∈ lists, ∀ e ∈ list.records, e.time = list.time) :
    Closes current (recited ranks groups stop current lists) := by
  have hended : ∀ current : Option Nat, Closes current (closing current) := by
    intro current
    cases current with
    | none => rfl
    | some previous => exact ⟨fun _ h => Option.some.inj h, rfl⟩
  induction lists generalizing current with
  | nil => cases current with
    | none => rfl
    | some previous => exact ⟨fun _ h => Option.some.inj h, rfl⟩
  | cons list lists ih =>
    have htimes' := fun list' (hlist : list' ∈ lists) => htimes list' (.tail _ hlist)
    rw [recited]
    split
    · split
      · exact hended current
      · have hchosen : ∀ e ∈ list.records.filterMap (chosen ranks), e.time = list.time := by
          intro e he
          obtain ⟨e', he', hchosen⟩ := List.mem_filterMap.1 he
          unfold chosen at hchosen
          split at hchosen
          · cases hchosen
            exact htimes list (.head _) e' he'
          · cases hchosen
        have hrest := ih (some list.time) htimes'
        rw [List.append_assoc]
        cases current with
        | none => exact closes_scalars hchosen (fun _ h => by cases h) hrest
        | some previous =>
          by_cases hsame : previous = list.time
          · subst hsame
            rw [Option.filter_some, if_neg (by simp)]
            exact closes_scalars hchosen (fun _ h => (Option.some.inj h).symm) hrest
          · rw [Option.filter_some, if_pos (decide_eq_true hsame)]
            refine ⟨fun _ h => Option.some.inj h, ?_⟩
            exact closes_scalars hchosen (fun _ h => by cases h) hrest
    · exact ih current htimes'

/-- The scalars of lists in order of their times are in order. -/
theorem records_times (htimes : lists.Pairwise fun a b => a.time ≤ b.time)
    (hkinds : ∀ list ∈ lists, ∀ e ∈ list.records, e.time = list.time) :
    (lists.flatMap SourceList.records).Pairwise fun e e' => e.time ≤ e'.time := by
  refine List.pairwise_flatMap.2 ⟨fun list hlist => ?_, htimes.imp_of_mem ?_⟩
  · exact List.pairwise_iff_getElem.2 fun i j hi hj _ => by
      rw [hkinds list hlist _ (List.getElem_mem hi), hkinds list hlist _ (List.getElem_mem hj)]
  · intro list list' hlist hlist' hle e he e' he'
    rwa [hkinds list hlist e he, hkinds list' hlist' e' he']

/-! ## Selections -/

/-- A scalar among events. -/
theorem mem_scalars {e : ScalarEvent} : e ∈ events.filterMap scalarOf ↔ .scalar e ∈ events := by
  rw [List.mem_filterMap]
  constructor
  · rintro ⟨event, hevent, heq⟩
    cases event with
    | scalar e' => cases heq; exact hevent
    | listEnd => cases heq
    | tick => cases heq
  · exact fun h => ⟨_, h, rfl⟩

/-- What is chosen of scalars that are delivered is a selection, with the routes of the source
IDs. -/
theorem selects_chosen {t : Types} {active : Active} {ids : List Nat}
    (hactive : active.Pairwise fun x y => x.1 < y.1)
    (hplaced : List.Forall₂ (PlacedAt active) ids ranks) {e : ScalarEvent}
    (h : Delivers t active ids e) : Selects t active ids (chosen ranks) e := by
  obtain ⟨type, hget, hstored⟩ := h.stored
  have hrank : PlacedAt active e.id e.rank := ⟨type, hget⟩
  refine ⟨h, fun hnone => ?_, fun e' hsome => ?_⟩
  · unfold chosen at hnone
    split at hnone
    · cases hnone
    · next hmem => exact fun hid => hmem ((mem_ranks hactive hplaced hrank).2 hid)
  · have hroute := chosen_route hplaced hrank hsome
    unfold chosen at hsome
    split at hsome
    · cases hsome
      exact ⟨⟨⟨type, hget, hstored⟩, .inr hroute⟩, rfl, rfl, rfl⟩
    · cases hsome

/-- What an indexed read hands over of scalars that are delivered is delivered. -/
theorem recited_delivered {t : Types} {active : Active} {ids : List Nat}
    (hactive : active.Pairwise fun x y => x.1 < y.1)
    (hplaced : List.Forall₂ (PlacedAt active) ids ranks) (hserves : Serves ranks groups lists)
    (htimes : lists.Pairwise fun a b => a.time ≤ b.time)
    (hdelivered : ∀ list ∈ lists, ∀ e ∈ list.records, Delivers t active ids e) :
    EventsDelivered t active ids (recited ranks groups stop none lists) := by
  intro e' he'
  rw [← mem_scalars, scalars_recited none hserves htimes] at he'
  obtain ⟨e, he, hchosen⟩ := List.mem_filterMap.1 he'
  obtain ⟨list, hlist, he⟩ := List.mem_flatMap.1 he
  exact ((selects_chosen hactive hplaced
    (hdelivered list (List.mem_filter.1 hlist).1 e he)).some e' hchosen).1

end

end Index

namespace Assembly

/-- The last values that notifications have of an index, for each time. -/
def lastValues (index : Nat) (notifications : List Notification) : History Value :=
  History.finals (notifications.filterMap (reported index))

/-- **Both ways of a read report the same.** A read of signals of an accepted section, from the
index of an accepted body and from the walk. -/
theorem reads_alike {t : Types} {d : Declarations} {signals : List Signal} {slots : List Recipe}
    {a : Assembly} (h : Prepared t d signals slots a) (hmarked : Marked a)
    (htouched : a.touched = []) {slot : Nat} {index : Nat} {recipe : Recipe}
    (howns : Owns a slot index) (hrecipe : slots[slot]? = some recipe) {events events' : List Event}
    (hevents : EventsDelivered t d.active (sourceIdsOf a.dependencies) events)
    (hcloses : Closes none events)
    (hevents' : EventsDelivered t d.active (sourceIdsOf a.dependencies) events')
    (hcloses' : Closes none events') {select : ScalarEvent → Option ScalarEvent}
    (hselects : ∀ e ∈ events.filterMap scalarOf,
      Selects t d.active (sourceIdsOf a.dependencies) select e)
    (hscalars : events'.filterMap scalarOf = (events.filterMap scalarOf).filterMap select)
    {notifications notifications' : List Notification} {c c' : Assembly}
    (hrun : a.run events = some (notifications, c))
    (hrun' : a.run events' = some (notifications', c')) :
    lastValues index notifications' = lastValues index notifications := by
  obtain ⟨_, _, hran, hreports⟩ := run_reports h.suit h.sorted hrecipe events a [] none h.fitted
    h.fresh.counted hmarked howns hcloses (fun _ => htouched) hevents
  obtain ⟨_, _, hran', hreports'⟩ := run_reports h.suit h.sorted hrecipe events' a [] none h.fitted
    h.fresh.counted hmarked howns hcloses' (fun _ => htouched) hevents'
  cases hrun.symm.trans hran
  cases hrun'.symm.trans hran'
  have hselected := reports_selected h.suit h.sorted slot _ a h.fitted hselects
  rw [← hscalars] at hselected
  rw [lastValues, lastValues, hreports, hreports', hselected]

end Assembly

open Assembly

/-- The walk hands some events to any visitor, and returns its break. -/
def Walks (b : Body) (wire : Wire) (events : List Event) : Prop :=
  ∀ {σ B : Type} (visitor : σ → Event → σ × ControlFlow B) (c : σ),
    (walk b true visitor c wire).1 = (visit visitor c events).1 ∧
      (walk b true visitor c wire).2.1.map Prod.fst = .ok (visit visitor c events).2

/-- A recipe has a value at a time: one of its source scalars is written then, and all of them were
seen up to it. -/
def ValueAt (events : List Event) (recipe : Recipe) (time : Nat) : Prop :=
  (∃ e, .scalar e ∈ events ∧ e.time = time ∧ e.id ∈ recipe.ids) ∧
    ∀ id ∈ recipe.ids, ∃ e, .scalar e ∈ events ∧ e.time ≤ time ∧ e.id = id

/-- The times of what a read reports, for events in order up to an end. -/
theorem lastValues_iff {t : Types} {d : Declarations} {signals : List Signal} {slots : List Recipe}
    {a : Assembly} (h : Prepared t d signals slots a) (hmarked : Marked a)
    (htouched : a.touched = []) {slot index stop time : Nat} {recipe : Recipe}
    (howns : Owns a slot index) (hrecipe : slots[slot]? = some recipe) {events walked : List Event}
    (hwalked : walked = events.filter fun e => decide (e.time ≤ stop))
    (hevents : EventsDelivered t d.active (sourceIdsOf a.dependencies) walked)
    (hcloses : Closes none walked)
    (htimes : (walked.filterMap scalarOf).Pairwise fun e e' => e.time ≤ e'.time)
    {notifications : List Notification} {c : Assembly}
    (hrun : a.run walked = some (notifications, c)) :
    (∃ v, (time, v) ∈ lastValues index notifications) ↔
      time ≤ stop ∧ ValueAt events recipe time := by
  obtain ⟨_, _, hran, hreports⟩ := run_reports h.suit h.sorted hrecipe walked a [] none h.fitted
    h.fresh.counted hmarked howns hcloses (fun _ => htouched) hevents
  cases hrun.symm.trans hran
  have hmem : ∀ e, e ∈ walked.filterMap scalarOf ↔ .scalar e ∈ events ∧ e.time ≤ stop := by
    intro e
    rw [Index.mem_scalars, hwalked, List.mem_filter, decide_eq_true_eq]
    rfl
  rw [lastValues, hreports, History.exists_mem_finals]
  show (∃ v, (time, v) ∈ reports slot a (walked.filterMap scalarOf)) ↔ _
  rw [reported_iff h.suit h.sorted hrecipe h.fitted h.fresh.counted
    (fun e he => hevents e (Index.mem_scalars.1 he)) htimes]
  constructor
  · rintro ⟨⟨e, he, rfl, hid⟩, hall⟩
    obtain ⟨he, hstop⟩ := (hmem e).1 he
    refine ⟨hstop, ⟨e, he, rfl, hid⟩, fun id hid => ?_⟩
    obtain ⟨e', he', hle, heq⟩ := hall id hid
    exact ⟨e', ((hmem e').1 he').1, hle, heq⟩
  · rintro ⟨hstop, ⟨e, he, rfl, hid⟩, hall⟩
    refine ⟨⟨e, (hmem e).2 ⟨he, hstop⟩, rfl, hid⟩, fun id hid => ?_⟩
    obtain ⟨e', he', hle, heq⟩ := hall id hid
    exact ⟨e', (hmem e').2 ⟨he', hle.trans hstop⟩, hle, heq⟩

/-- The index that is built of what a walk hands over has the positions of its lists. -/
theorem spelled_records {t : Types} {active : Active} {wire : Wire} {offset limit : Nat}
    {lists : List Index.SourceList} (hlaid : LaidOut t active wire offset none lists)
    (hsize : wire.bytes.length < 2 ^ 64) (hlimit : limit ≤ indexBytes) {checked : Bool}
    {answers : Allocator} {x : Index}
    (hbuild : (Index.withLimit active.length limit answers >>=
      Index.visitAll checked (spelled none lists) >>= Index.complete) = .ok (some x)) :
    Index.Records checked active.length lists x := by
  have hspelled : Index.visitAll checked (spelled none lists) =
      Index.visitAll checked (lists.flatMap Index.SourceList.events) :=
    funext fun positions => visitAll_spelled checked lists none positions
  obtain ⟨positions, hbuilt, hrecords⟩ :=
    Index.build_records checked answers hlimit (hlaid.inOrder hsize)
  rw [hspelled, hbuilt] at hbuild
  exact hrecords x (Except.ok.inj hbuild)

/-- The records of the lists that a walk spells are delivered. -/
theorem lists_delivered {b : Body} {w : Walk} {out : List Emission} {r : Walked}
    {lists : List Index.SourceList} (ids : List Nat) (hrun : Runs (walkStep b true) w out r)
    (htold : told out = spelled none lists) :
    ∀ list ∈ lists, ∀ e ∈ list.records, Delivers b.types b.active ids e := by
  intro list hlist e he
  have hmem : e ∈ (told out).filterMap scalarOf := by
    rw [htold, Index.scalars_spelled]
    exact List.mem_flatMap.2 ⟨list, hlist, he⟩
  obtain ⟨emission, hemission, heq⟩ := List.mem_map.1 (Index.mem_scalars.1 hmem)
  exact walk_delivered ids hrun emission hemission e heq

/-- **Indexed reads equal the walk.** The walk accepts a body over the active table of an accepted
section, and the index that is built of its events is kept. For any selected signals and any end,
the index and the walk hand some events to every visitor, unless the index leaves the read to the
walk. The consumer takes both, and reports of each signal the same last value at each time. It
reports a signal at the times up to the end at which its recipe has a value. -/
theorem indexed_eq_walk {strings : List String} {t : Types} {w₀ w₁ : Wire}
    (hparse : Types.parse strings w₀ = (.ok t, w₁)) {d : Declarations} {w w' : Wire}
    (hread : Declarations.read t w = (.ok d, w')) {sort : List Dependency → List Dependency}
    (hsort : Sorts sort) {signals : List Signal}
    (hsignals : ∀ signal ∈ signals, signal.index < d.recipes.length)
    (hdistinct : (signals.map Signal.index).Nodup) {wire : Wire} {events : List Event}
    {span : Option TimeSpan} {offset : Nat}
    (hwalk : walk ⟨t, d.active, 2 ^ 64 - 1⟩ true
      (fun seen e => (seen ++ [e], ControlFlow.continue (B := Empty))) [] wire =
        (events, .ok (.continue, span), offset))
    (hsize : wire.bytes.length < 2 ^ 64) {checked : Bool} {limit : Nat}
    {answers : Allocator} {x : Index} (hlimit : limit ≤ indexBytes)
    (hbuild : (Index.withLimit d.active.length limit answers >>=
      Index.visitAll checked events >>= Index.complete) = .ok (some x))
    {stop : Nat} (hstop : stop < 2 ^ 64) {wire' : Wire} (hsame : Wire.Same wire' wire) :
    ∃ a indexed walked, prepare t d.recipes d.active true sort signals wire' = (.ok a, wire') ∧
      Index.Reads checked x t d.active (sourceIdsOf a.dependencies) stop wire' indexed ∧
      Walks ⟨t, d.active, stop⟩ wire' walked ∧
      EventsDelivered t d.active (sourceIdsOf a.dependencies) indexed ∧
      ∃ fromIndex fromWalk c c', a.run indexed = some (fromIndex, c) ∧
        a.run walked = some (fromWalk, c') ∧
        ∀ signal ∈ signals,
          lastValues signal.index fromIndex = lastValues signal.index fromWalk ∧
          ∃ recipe, d.recipes[signal.index]? = some recipe ∧
            ∀ time, (∃ v, (time, v) ∈ lastValues signal.index fromIndex) ↔
              time ≤ stop ∧ ValueAt events recipe time := by
  obtain ⟨out, r, hrun, hok, rfl⟩ := accepted_runs hwalk
  obtain ⟨⟨lists, hlaid, htold⟩, hearlier⟩ := walk_laid hrun hok
  have horder := hlaid.inOrder hsize
  have htimes := hlaid.times
  have hkinds : ∀ list ∈ lists, ∀ e ∈ list.records, e.time = list.time :=
    fun list hlist e he => (horder.kinds list hlist e he).1
  rw [htold] at hbuild
  have hindex := spelled_records hlaid hsize hlimit hbuild
  -- The read is prepared, and its source IDs ascend in the active table.
  obtain ⟨a, slots, hprepare, h⟩ := read_prepared hparse hread hsort hsignals true wire'
  obtain ⟨hmarked, htouched⟩ := prepare_marked hprepare
  have hids := sourceIdsOf_ascend h.fitted.sorted
  have hlisted : ∀ id ∈ sourceIdsOf a.dependencies, ∃ type, (id, type) ∈ d.active := by
    intro id hid
    obtain ⟨dependency, hmem, rfl⟩ := (mem_sourceIdsOf h.fitted.sorted).1 hid
    exact h.fitted.listed h.suit hmem
  have hlies : ∀ list ∈ lists, ∃ start ends,
      Laid t d.active wire list.time list.cyclic start 0 list.records ends := by
    intro list hlist
    obtain ⟨start, ends, -, hlaid⟩ := hlaid.laid list hlist
    exact ⟨start, ends, hlaid⟩
  obtain ⟨ranks, groups, hplaced, hserves, hreads⟩ :=
    Index.read_recites hindex hlies h.sorted hids hlisted hsame.place_eq
  -- The walk up to the end.
  obtain ⟨out', r', hrun', ⟨span', hok'⟩, htold'⟩ :=
    hearlier stop (Nat.le_sub_one_of_lt hstop) wire' hsame
  have hspelled : told out' =
      spelled none (lists.filter fun list => decide (list.time ≤ stop)) := by
    rw [htold', htold]
    exact hlaid.spelled_upto nofun
  have hupto : ∀ list ∈ lists.filter fun list => decide (list.time ≤ stop),
      ∀ e ∈ list.records, e.time = list.time :=
    fun list hlist => hkinds list (List.mem_filter.1 hlist).1
  have hcloses' : Closes none (told out') := hspelled ▸ Index.closes_spelled none hupto
  have hcloses : Closes none (Index.recited ranks groups stop none lists) :=
    Index.closes_recited none hkinds
  have hwalked : EventsDelivered t d.active (sourceIdsOf a.dependencies) (told out') := by
    intro e he
    obtain ⟨emission, hemission, heq⟩ := List.mem_map.1 he
    exact walk_delivered (sourceIdsOf a.dependencies) hrun' emission hemission e heq
  -- The read hands over the selection of what the walk does.
  have hscalars : (Index.recited ranks groups stop none lists).filterMap scalarOf =
      ((told out').filterMap scalarOf).filterMap (Index.chosen ranks) := by
    rw [Index.scalars_recited none hserves htimes, hspelled, Index.scalars_spelled]
  have hselects : ∀ e ∈ (told out').filterMap scalarOf,
      Selects t d.active (sourceIdsOf a.dependencies) (Index.chosen ranks) e := fun e he =>
    Index.selects_chosen h.sorted hplaced (hwalked e (Index.mem_scalars.1 he))
  have hindexed : EventsDelivered t d.active (sourceIdsOf a.dependencies)
      (Index.recited ranks groups stop none lists) :=
    Index.recited_delivered h.sorted hplaced hserves htimes
      (lists_delivered (sourceIdsOf a.dependencies) hrun htold)
  obtain ⟨fromIndex, c, hfromIndex, -, -⟩ :=
    run_counted h.suit h.sorted _ a [] h.fitted h.fresh.counted hindexed
  obtain ⟨fromWalk, c', hfromWalk, -, -⟩ :=
    run_counted h.suit h.sorted _ a [] h.fitted h.fresh.counted hwalked
  refine ⟨a, _, told out', hprepare, hreads stop, fun visitor c => walk_visits hrun' hok' visitor c,
    hindexed, fromIndex, fromWalk, c, c', hfromIndex, hfromWalk, fun signal hsignal => ?_⟩
  obtain ⟨slot, hslot⟩ := List.mem_iff_getElem?.1 hsignal
  obtain ⟨recipe, hrecipe, hget⟩ := forall₂_getElem? h.recipes hslot
  have howns := owns_of_nodup (prepare_indices hprepare) hdistinct hslot
  have halike := reads_alike h hmarked htouched howns hrecipe hwalked hcloses' hindexed hcloses
    hselects hscalars hfromWalk hfromIndex
  refine ⟨halike, recipe, hget, fun time => ?_⟩
  rw [halike]
  refine lastValues_iff h hmarked htouched howns hrecipe htold' hwalked hcloses' ?_ hfromWalk
  rw [hspelled, Index.scalars_spelled]
  exact Index.records_times (htimes.filter _) hupto

/-- A hierarchy section with an object of the vector of `vectorFile`, and three bits. -/
def sparseSection : Wire :=
  ⟨[0, 0, 0, 0, 0, 0, 0, 0, 4, 0, 0, 0, 5, 0, 0, 0, 16, 6, 4, 1, 2, 1, 16, 6, 2, 3, 16, 6, 2, 4,
    16, 6, 2, 5, 0], none, 0, 35, false, 0, 0, 0, fun _ => 1⟩

/-- A body of these five bits: a snapshot, two lists at 5, and one at 7 and at 9 each. -/
def sparseWire : Wire where
  bytes := ascii "SNP\x00" ++ List.replicate 12 0 ++ [1, 0, 1, 1, 0] ++ ascii "ESN\x00" ++
    ascii "CYC\x00" ++ (5 :: List.replicate 7 0) ++
    [2, 1, 0, 0, 2, 0, 3, 1, 0, 2, 4, 1, 0, 2, 1, 0, 0, 0x7f] ++ ascii "ECY\x00"
  fault := none
  offset := 0
  len := 59
  bigEndian := false
  version := 1
  buffered := 0
  fills := 0
  sizes := fun _ => 8

/-- The middle bit of the vector is written twice at 5, which the walk reports twice and the index
once. Nothing of the vector is written at 7, and 9 is past the end. -/
theorem indexed_eq_walk_sparse :
    let bus : Signal := ⟨0, 0, false, .bits 3, .bits 3, 0⟩
    ∃ t d a x w₁ w' indexed walked fromIndex fromWalk c c',
      Types.parse vectorStrings vectorFile = (.ok t, w₁) ∧
      Declarations.read t sparseSection = (.ok d, w') ∧
      prepare t d.recipes d.active true byId [bus] sparseWire = (.ok a, sparseWire) ∧
      Index.Reads true x t d.active (sourceIdsOf a.dependencies) 8 sparseWire indexed ∧
      Walks ⟨t, d.active, 8⟩ sparseWire walked ∧
      a.run indexed = some (fromIndex, c) ∧ a.run walked = some (fromWalk, c') ∧
      fromIndex.filterMap (reported 0) = [(0, .bits [49, 48, 49]), (5, .bits [49, 48, 49])] ∧
      fromWalk.filterMap (reported 0) =
        [(0, .bits [49, 48, 49]), (5, .bits [49, 49, 49]), (5, .bits [49, 48, 49])] ∧
      lastValues 0 fromIndex = lastValues 0 fromWalk := by
  intro bus
  have heval : ((Types.parse vectorStrings vectorFile).1.toOption.bind fun t =>
      (Declarations.read t sparseSection).1.toOption.bind fun d =>
        let r := walk ⟨t, d.active, 2 ^ 64 - 1⟩ true
          (fun seen e => (seen ++ [e], ControlFlow.continue (B := Empty))) [] sparseWire
        r.2.1.toOption.bind fun _ =>
          (Index.withLimit d.active.length (2 ^ 24) (fun _ => some 1) >>=
            Index.visitAll true r.1 >>= Index.complete).toOption.join.bind fun x =>
              (prepare t d.recipes d.active true byId [bus] sparseWire).1.toOption.bind fun a =>
                (a.run (Index.read true x (fun _ => true) t d.active (sourceIdsOf a.dependencies) 8
                  (fun seen e => (seen ++ [e], ControlFlow.continue (B := Empty))) []
                    sparseWire).1).bind fun fromIndex =>
                  (a.run (walk ⟨t, d.active, 8⟩ true
                    (fun seen e => (seen ++ [e], ControlFlow.continue (B := Empty))) []
                      sparseWire).1).map fun fromWalk =>
                    (d.recipes.length, sourceIdsOf a.dependencies,
                      fromIndex.1.filterMap (reported 0), fromWalk.1.filterMap (reported 0))) =
      some (4, [1, 2], [(0, .bits [49, 48, 49]), (5, .bits [49, 48, 49])],
        [(0, .bits [49, 48, 49]), (5, .bits [49, 49, 49]), (5, .bits [49, 48, 49])]) := by
    decide +kernel
  obtain ⟨t, ht, heval⟩ := Option.bind_eq_some_iff.1 heval
  obtain ⟨w₁, hparse⟩ := Decoder.exists_ok ht
  obtain ⟨d, hd, heval⟩ := Option.bind_eq_some_iff.1 heval
  obtain ⟨w', hread⟩ := Decoder.exists_ok hd
  obtain ⟨⟨flow, span⟩, hflow, heval⟩ := Option.bind_eq_some_iff.1 heval
  obtain ⟨x, hx, heval⟩ := Option.bind_eq_some_iff.1 heval
  obtain ⟨a, ha, heval⟩ := Option.bind_eq_some_iff.1 heval
  obtain ⟨⟨fromIndex, c⟩, hfromIndex, heval⟩ := Option.bind_eq_some_iff.1 heval
  obtain ⟨⟨fromWalk, c'⟩, hfromWalk, heval⟩ := Option.map_eq_some_iff.1 heval
  obtain ⟨hlength, heval⟩ := Prod.mk.inj heval
  obtain ⟨hids, heval⟩ := Prod.mk.inj heval
  obtain ⟨hindexValues, hwalkValues⟩ := Prod.mk.inj heval
  have hsignals : ∀ signal ∈ [bus], signal.index < d.recipes.length := by
    intro signal hmem
    obtain rfl := List.mem_singleton.1 hmem
    rw [hlength]
    decide
  rcases hwalk : walk ⟨t, d.active, 2 ^ 64 - 1⟩ true
    (fun seen e => (seen ++ [e], ControlFlow.continue (B := Empty))) [] sparseWire with
    ⟨events, outcome, offset⟩
  rw [hwalk] at hflow hx
  obtain rfl : outcome = .ok (.continue, span) := by
    cases outcome with
    | error e => cases hflow
    | ok found =>
      cases hflow
      cases flow with
      | «continue» => rfl
      | «break» value => exact value.elim
  have hbuild : (Index.withLimit d.active.length (2 ^ 24) (fun _ => some 1) >>=
      Index.visitAll true events >>= Index.complete) = .ok (some x) := by
    cases hresult : (Index.withLimit d.active.length (2 ^ 24) (fun _ => some 1) >>=
        Index.visitAll true events >>= Index.complete) with
    | error fault => rw [hresult] at hx; cases hx
    | ok found =>
      rw [hresult] at hx
      exact congrArg Except.ok (Option.some.inj (Option.join_eq_some_iff.1 hx))
  obtain ⟨a', indexed, walked, hprepare, hreads, hwalks, -, _, _, _, _, hindexed, hwalked, hall⟩ :=
    indexed_eq_walk hparse hread byId_sorts hsignals (List.nodup_singleton _) hwalk (by decide)
      (by decide : 2 ^ 24 ≤ indexBytes) hbuild (by decide : 8 < 2 ^ 64) (.refl _)
  rw [hprepare] at ha
  cases ha
  have hgranted : Index.Granted (fun _ => true) (sourceIdsOf a.dependencies) := by
    rw [hids]
    exact ⟨fun _ _ => rfl, by decide⟩
  rw [((hreads _ _ _).1 hgranted).1, visit_push, List.nil_append] at hfromIndex
  rw [(hwalks _ _).1, visit_push, List.nil_append] at hfromWalk
  cases hindexed.symm.trans hfromIndex
  cases hwalked.symm.trans hfromWalk
  exact ⟨t, d, a, x, w₁, w', indexed, walked, fromIndex, fromWalk, c, c', hparse, hread, hprepare,
    hreads, hwalks, hfromIndex, hfromWalk, hindexValues, hwalkValues, (hall bus (.head _)).1⟩

end Ondas.Ghw
