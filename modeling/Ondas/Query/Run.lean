import Ondas.Query.Engine

/-!
# What a traversal publishes

The traversal of a well-ordered stream of deliveries, from slots that hold the reference of the
records before it: it publishes the ticks the deliveries complete, in order, each with the slots of
the reference (`consume_all`), and a failing delivery publishes only the ticks complete before it
(`consume_failure`). `Holding` is the invariant; `take_holds` and `complete_holds` say what one
delivery does to it.
-/

namespace Ondas.Query

open Library
open Vcd (Position)

/-! ## Deliveries -/

namespace Delivery

/-- The record a delivery decoded. -/
def record? : Delivery → Option Record
  | .record base (.ok value) time _ => some ⟨base, time, value⟩
  | _ => none

/-- The tick a delivery completes, given the pending one. -/
def closed (pending : Option Nat) : Delivery → Option Nat
  | .record _ _ time _ => pending.filter fun previous => decide (previous ≠ time)
  | .tick _ => pending

/-- The pending tick after a delivery. -/
def pendingAfter : Delivery → Option Nat
  | .record _ _ time _ => some time
  | .tick _ => none

/-- Why a delivery fails, after the records `recs`: it did not decode, or it counts too many
events. -/
def failure (backend : String) (plan : Plan) (recs : List Record) : Delivery → Option Error
  | .record _ (.error e) _ _ => some e
  | .record base (.ok value) time _ =>
    if plan.entries base ≠ [] ∧
        u64Max < eventsAt recs base time + Record.occurrences ⟨base, time, value⟩ ∧
        value.isEvent = true then
      some (countError backend)
    else none
  | .tick _ => none

end Delivery

/-- The records of a stream of deliveries. -/
def decoded (ds : List Delivery) : List Record := ds.filterMap Delivery.record?

/-- The ticks a stream completes. -/
def completedTicks : Option Nat → List Delivery → List Nat
  | _, [] => []
  | pending, d :: ds => (d.closed pending).toList ++ completedTicks d.pendingAfter ds

/-- The pending tick after a stream. -/
def pendingTick : Option Nat → List Delivery → Option Nat
  | pending, [] => pending
  | _, d :: ds => pendingTick d.pendingAfter ds

/-- Time does not go back in a stream, from a tick on, and nothing follows at a completed tick. -/
def Ordered : Nat → List Delivery → Prop
  | _, [] => True
  | t, .record _ _ time _ :: ds => t ≤ time ∧ Ordered time ds
  | t, .tick time :: ds => t ≤ time ∧ Ordered (time + 1) ds

/-- No delivery of a stream fails, after the records `recs`. -/
def Clean (backend : String) (plan : Plan) : List Record → List Delivery → Prop
  | _, [] => True
  | recs, d :: ds =>
    d.failure backend plan recs = none ∧ Clean backend plan (recs ++ d.record?.toList) ds

/-- The records of a stream are those of its deliveries. -/
@[simp] theorem decoded_cons (d : Delivery) (ds : List Delivery) :
    decoded (d :: ds) = d.record?.toList ++ decoded ds := by
  unfold decoded
  cases h : d.record? with
  | none => rw [List.filterMap_cons_none h]; rfl
  | some r => rw [List.filterMap_cons_some h]; rfl

/-- The first part of an ordered stream is ordered. -/
theorem Ordered.left {t : Nat} {ds rest : List Delivery} (h : Ordered t (ds ++ rest)) :
    Ordered t ds := by
  induction ds generalizing t with
  | nil => trivial
  | cons d ds ih => cases d <;> exact ⟨h.1, ih h.2⟩

/-- The records of an ordered stream come from its first tick on. -/
theorem Ordered.le {t : Nat} {ds : List Delivery} (h : Ordered t ds) :
    ∀ r ∈ decoded ds, t ≤ r.time := by
  induction ds generalizing t with
  | nil => nofun
  | cons d ds ih =>
    intro r hr
    rw [decoded_cons] at hr
    cases d with
    | tick time =>
      have := ih h.2 r (by simpa [Delivery.record?] using hr)
      have := h.1
      omega
    | record base value time position =>
      rcases List.mem_append.1 hr with hr | hr
      · cases value with
        | error e => cases hr
        | ok v =>
          rw [show r = ⟨base, time, v⟩ by simpa [Delivery.record?] using hr]
          exact h.1
      · exact Nat.le_trans h.1 (ih h.2 r hr)

/-! ## Visiting ticks -/

/-- Visit ticks with their slots until the visitor stops. -/
def sweep {σ B : Type} (visitor : TickVisitor σ B) :
    σ → List (Nat × List Slot) → σ × Except Error (ControlFlow B)
  | c, [] => (c, .ok .continue)
  | c, (t, slots) :: rest =>
    match visitor c t slots with
    | (c, .ok .continue) => sweep visitor c rest
    | (c, outcome) => (c, outcome)

/-- Ticks with the slots their visitor sees. -/
def views (w : Waveform) (plan : Plan) (recs : List Record) (ticks : List Nat) :
    List (Nat × List Slot) :=
  ticks.map fun t => (t, plan.retained.map (w.viewSlot recs t))

section
variable {σ B : Type} {visitor : TickVisitor σ B}

/-- Going on through two lists of ticks. -/
theorem sweep_append_continue {c c' : σ} {xs ys : List (Nat × List Slot)}
    (h : sweep visitor c xs = (c', .ok .continue)) :
    sweep visitor c (xs ++ ys) = sweep visitor c' ys := by
  induction xs generalizing c with
  | nil => cases h; rfl
  | cons x xs ih =>
    obtain ⟨t, slots⟩ := x
    simp only [sweep] at h
    simp only [List.cons_append, sweep]
    rcases hx : visitor c t slots with ⟨d, e | _ | b⟩
    · rw [hx] at h; cases h
    · rw [hx] at h; exact ih h
    · rw [hx] at h; cases h

/-- Stopping in the first of two lists of ticks. -/
theorem sweep_append_stop {c c' : σ} {outcome : Except Error (ControlFlow B)}
    {xs ys : List (Nat × List Slot)} (h : sweep visitor c xs = (c', outcome))
    (hstop : outcome ≠ .ok .continue) : sweep visitor c (xs ++ ys) = (c', outcome) := by
  induction xs generalizing c with
  | nil => cases h; exact absurd rfl hstop
  | cons x xs ih =>
    obtain ⟨t, slots⟩ := x
    simp only [sweep] at h
    simp only [List.cons_append, sweep]
    rcases hx : visitor c t slots with ⟨d, e | _ | b⟩
    · rw [hx] at h; cases h; rfl
    · rw [hx] at h; exact ih h
    · rw [hx] at h; cases h; rfl

/-- A sweep over one tick is a call. -/
theorem sweep_singleton (c : σ) (t : Nat) (slots : List Slot) :
    sweep visitor c [(t, slots)] = visitor c t slots := by
  simp only [sweep]
  rcases visitor c t slots with ⟨d, e | _ | b⟩ <;> rfl

/-- A visitor that only sees the ticks of its window. -/
theorem sweep_shown (start : Option Nat) (c : σ) (xs : List (Nat × List Slot)) :
    sweep (shown start visitor) c xs =
      sweep visitor c (xs.filter fun x => start.all fun start => decide (start ≤ x.1)) := by
  induction xs generalizing c with
  | nil => rfl
  | cons x xs ih =>
    obtain ⟨t, slots⟩ := x
    simp only [sweep, shown, List.filter_cons]
    by_cases h : start.all (fun start => decide (start ≤ t)) = true
    · simp only [h, if_true, sweep]
      rcases visitor c t slots with ⟨d, e | _ | b⟩
      · rfl
      · exact ih d
      · rfl
    · simp only [h, if_false, Bool.false_eq_true]
      exact ih c

end

/-- Later records do not change the slots of a tick. -/
theorem viewSlot_append {w : Waveform} {recs more : List Record} {signal : Signal} {t : Nat}
    (h : ∀ r ∈ more, t < r.time) :
    w.viewSlot (recs ++ more) t signal = w.viewSlot recs t signal := by
  have hne : ∀ r ∈ more, r.time ≠ t := fun r hr => Nat.ne_of_gt (h r hr)
  unfold Waveform.viewSlot Waveform.fullSlot Waveform.pendingAt
  rw [Waveform.enteredAt_append fun r hr => (h r hr).le, Waveform.writtenAt_append hne,
    Waveform.valueAt_append h, countAt_append hne]

/-! ## Taking a record -/

/-- A slot after one write of its history. -/
def writtenSlot (plan : Plan) (value : Value) (index : Nat) (slot : Slot) : Slot :=
  match value with
  | .event occurrences => { slot with events := slot.events + occurrences }
  | value =>
    { slot with
      pending := some (match plan.retained[index]? with
        | some signal => (project value signal).toOwned
        | none => value.toOwned) }

section
variable {σ B : Type} {tr : Traversal σ B} {value : Value}

/-- A write counts within `u64`. -/
def Counts (value : Value) (slot : Slot) : Prop :=
  ∀ occurrences, value = .event occurrences → slot.events + occurrences ≤ u64Max

variable (tr) in
/-- Writing one slot. -/
theorem writeSlot_ok {index : Nat} {work : List Slot × List Nat}
    (h : Counts value (slotAt work.1 index)) :
    ∃ active, writeSlot tr value index work =
        .ok (work.1.modify index (writtenSlot tr.plan value index), active) ∧
      (∀ i ∈ work.2, i ∈ active) ∧
      ((slotAt work.1 index).busy = false → value ≠ .event 0 → index ∈ active) := by
  have hactive : ∀ active, active = (if (slotAt work.1 index).pending.isNone &&
        (slotAt work.1 index).events == 0 && value != .event 0 then work.2 ++ [index]
        else work.2) → (∀ i ∈ work.2, i ∈ active) ∧
      ((slotAt work.1 index).busy = false → value ≠ .event 0 → index ∈ active) := by
    rintro active rfl
    constructor
    · intro i hi
      split
      · exact List.mem_append_left _ hi
      · exact hi
    · intro hbusy hvalue
      simp only [Slot.busy, Bool.or_eq_false_iff, decide_eq_false_iff_not, Nat.not_lt,
        Nat.le_zero, Option.isSome_eq_false_iff] at hbusy
      rw [if_pos (by simp [hbusy, hvalue])]
      simp
  cases value with
  | event occurrences =>
    refine ⟨_, ?_, hactive _ rfl⟩
    simp only [writeSlot]
    rw [if_pos (h occurrences rfl)]
    rfl
  | bits | real | string => exact ⟨_, rfl, hactive _ rfl⟩

/-- A write that counts too many events. -/
theorem writeSlot_error {index : Nat} {work : List Slot × List Nat}
    (h : ¬ Counts value (slotAt work.1 index)) :
    writeSlot tr value index work = .error (countError tr.backend) := by
  cases value with
  | event occurrences =>
    have hlt : ¬ (slotAt work.1 index).events + occurrences ≤ u64Max := fun hle =>
      h fun k hk => by cases hk; exact hle
    simp only [writeSlot]
    rw [if_neg hlt]
  | bits | real | string => exact absurd nofun h

/-- Changing one slot keeps the others. -/
theorem slotAt_modify_ne {slots : List Slot} {i j : Nat} (f : Slot → Slot) (h : i ≠ j) :
    slotAt (slots.modify i f) j = slotAt slots j := by
  unfold slotAt
  rw [List.getElem?_modify_ne _ _ h]

variable (tr) in
/-- Writing the slots of a history. -/
theorem writeSlots_ok {indices : List Nat} (work : List Slot × List Nat) (hnodup : indices.Nodup)
    (h : ∀ i ∈ indices, Counts value (slotAt work.1 i)) :
    ∃ work', writeSlots tr value indices work = .ok work' ∧
      (∀ i, work'.1[i]? = work.1[i]?.map fun slot =>
        if i ∈ indices then writtenSlot tr.plan value i slot else slot) ∧
      (∀ i ∈ work.2, i ∈ work'.2) ∧
      (∀ i ∈ indices, (slotAt work.1 i).busy = false → value ≠ .event 0 → i ∈ work'.2) := by
  induction indices generalizing work with
  | nil => exact ⟨work, rfl, by simp, fun i hi => hi, nofun⟩
  | cons index rest ih =>
    obtain ⟨hnot, hnodup⟩ := List.nodup_cons.1 hnodup
    obtain ⟨active, hone, hsub, hadd⟩ := writeSlot_ok tr (h index (by simp))
    have hrest : ∀ i ∈ rest, slotAt (work.1.modify index (writtenSlot tr.plan value index)) i =
        slotAt work.1 i := fun i hi => slotAt_modify_ne _ fun heq => hnot (heq ▸ hi)
    obtain ⟨work', hrun, hcells, hsub', hadd'⟩ := ih
      (work.1.modify index (writtenSlot tr.plan value index), active) hnodup
      fun i hi => by rw [hrest i hi]; exact h i (List.mem_cons_of_mem _ hi)
    refine ⟨work', ?_, fun i => ?_, fun i hi => hsub' i (hsub i hi), fun i hi hbusy hvalue => ?_⟩
    · rw [writeSlots, hone]
      exact hrun
    · rw [hcells i, List.getElem?_modify]
      cases work.1[i]? with
      | none => rfl
      | some slot =>
        by_cases hi : index = i
        · subst hi; simp [hnot]
        · simp [hi, Ne.symm hi]
    · rcases List.mem_cons.1 hi with rfl | hi
      · exact hsub' i (hadd hbusy hvalue)
      · exact hadd' i hi (by rw [hrest i hi]; exact hbusy) hvalue

/-- Writing the slots of a history fails when one of them counts too many events. -/
theorem writeSlots_error {indices : List Nat} {work : List Slot × List Nat}
    (hne : indices ≠ []) (h : ∀ i ∈ indices, ¬ Counts value (slotAt work.1 i)) :
    writeSlots tr value indices work = .error (countError tr.backend) := by
  cases indices with
  | nil => exact absurd rfl hne
  | cons index rest => rw [writeSlots, writeSlot_error (h index (by simp))]

end

section
variable {w : Waveform} {plan : Plan} {recs : List Record} {r : Record} {t : Nat} {signal : Signal}

/-- The history of one record has its value when it is of the base and no event. -/
theorem history_single (r : Record) (base : Nat) : history [r] base =
    if r.base = base ∧ r.value.isEvent = false then [(r.time, r.value.toOwned)] else [] := by
  unfold history
  by_cases h : r.base = base ∧ r.value.isEvent = false
  · simp [h]
  · rw [List.filterMap_cons_none (by rw [if_neg h]), if_neg h]
    rfl

/-- A record of another history changes nothing in a slot. -/
theorem openSlot_other (ht : r.time = t)
    (h : signal.computed = true ∨ r.base ≠ signal.index) :
    w.openSlot (recs ++ [r]) t signal = w.openSlot recs t signal := by
  unfold Waveform.openSlot
  rw [Waveform.enteredAt_append fun r' hr' => by
    rw [List.mem_singleton.1 hr']; exact Nat.le_of_eq ht.symm]
  rcases h with hc | hne
  · simp [hc, countAt]
  · cases hc : signal.computed with
    | true => simp [hc, countAt]
    | false =>
      have hhistory : history (recs ++ [r]) signal.index = history recs signal.index := by
        rw [history_append, history_single, if_neg fun hboth => hne hboth.1, List.append_nil]
      have hevents : eventsAt (recs ++ [r]) signal.index t = eventsAt recs signal.index t := by
        rw [eventsAt_append]
        simp [eventsAt, hne]
      have hpending : w.pendingAt (recs ++ [r]) t signal = w.pendingAt recs t signal := by
        unfold Waveform.pendingAt Waveform.writtenAt Waveform.valueAt
        rw [Waveform.touched_source hc, Waveform.touched_source hc, Waveform.value_source hc,
          Waveform.value_source hc]
        unfold written
        rw [hhistory]
      simp only [hpending, countAt, hc, hevents, if_false, Bool.false_eq_true]

/-- A record of a slot's own history is written to the slot. -/
theorem openSlot_written (hle : ∀ r' ∈ recs, r'.time ≤ t) (ht : r.time = t)
    (hc : signal.computed = false) (hbase : r.base = signal.index) {index : Nat}
    (hindex : plan.retained[index]? = some signal) :
    w.openSlot (recs ++ [r]) t signal =
      writtenSlot plan r.value index (w.openSlot recs t signal) := by
  have hentered : w.enteredAt (recs ++ [r]) signal t = w.enteredAt recs signal t :=
    Waveform.enteredAt_append fun r' hr' => by
      rw [List.mem_singleton.1 hr']; exact Nat.le_of_eq ht.symm
  have hevents : countAt (recs ++ [r]) signal t = countAt recs signal t + r.occurrences := by
    simp [countAt, hc, eventsAt, hbase, ht]
  cases hevent : r.value.isEvent with
  | true =>
    have hhistory : history (recs ++ [r]) signal.index = history recs signal.index := by
      rw [history_append, history_single, if_neg (by simp [hevent]), List.append_nil]
    have hpending : w.pendingAt (recs ++ [r]) t signal = w.pendingAt recs t signal := by
      unfold Waveform.pendingAt Waveform.writtenAt Waveform.valueAt
      rw [Waveform.touched_source hc, Waveform.touched_source hc, Waveform.value_source hc,
        Waveform.value_source hc]
      unfold written
      rw [hhistory]
    cases hvalue : r.value with
    | event occurrences =>
      simp only [Waveform.openSlot, hentered, hpending, hevents, writtenSlot, Record.occurrences,
        hvalue]
    | bits | real | string => rw [hvalue] at hevent; cases hevent
  | false =>
    have hhistory : history (recs ++ [r]) signal.index =
        history recs signal.index ++ [(t, r.value.toOwned)] := by
      rw [history_append, history_single, if_pos ⟨hbase, hevent⟩, ht]
    have hpending : w.pendingAt (recs ++ [r]) t signal =
        some (project r.value signal).toOwned := by
      unfold Waveform.pendingAt Waveform.writtenAt Waveform.valueAt
      rw [Waveform.touched_source hc, Waveform.value_source hc, written, hhistory]
      rw [History.valueAt_concat fun e he => ?_, if_pos (by simp), toOwned_project]
      · rfl
      · obtain ⟨r', hr', -, -, rfl⟩ := mem_history he
        exact hle r' hr'
    have hzero : r.occurrences = 0 := by
      unfold Record.occurrences
      cases hvalue : r.value with
      | event occurrences => rw [hvalue] at hevent; cases hevent
      | bits | real | string => rfl
    rw [hzero, Nat.add_zero] at hevents
    have hwritten : writtenSlot plan r.value index (w.openSlot recs t signal) =
        { w.openSlot recs t signal with pending := some (project r.value signal).toOwned } := by
      cases hvalue : r.value with
      | event occurrences => rw [hvalue] at hevent; cases hevent
      | bits | real | string => simp only [writtenSlot, hindex]
    rw [hwritten]
    simp only [Waveform.openSlot, hc, hentered, hpending, hevents, if_false, Bool.false_eq_true]

/-- The events of a slot of a history. -/
theorem openSlot_events (hc : signal.computed = false) :
    (w.openSlot recs t signal).events = eventsAt recs signal.index t := by
  simp [Waveform.openSlot, countAt, hc]

/-- The slot of a retained handle. -/
theorem Ready.slotAt {work : List Slot × List Nat} (h : Ready w plan recs t work) {index : Nat}
    (hindex : plan.retained[index]? = some signal) :
    slotAt work.1 index = w.openSlot recs t signal := by
  unfold Query.slotAt
  rw [h.slots, List.getElem?_map, hindex]
  rfl

variable {σ B : Type} {tr : Traversal σ B}

/-- Taking a record that does not fail keeps the slots those of the reference. -/
theorem writeSlots_ready (hfits : tr.plan.Fits w) (hle : ∀ r' ∈ recs, r'.time ≤ t)
    (ht : r.time = t) {work : List Slot × List Nat} (h : Ready w tr.plan recs t work)
    {position : Option Position}
    (hclean : (Delivery.record r.base (.ok r.value) r.time position).failure tr.backend tr.plan recs
      = none) :
    ∃ work', writeSlots tr r.value (tr.plan.entries r.base) work = .ok work' ∧
      Ready w tr.plan (recs ++ [r]) t work' := by
  have hcounts : ∀ i ∈ tr.plan.entries r.base, Counts r.value (slotAt work.1 i) := by
    intro i hi occurrences hvalue
    obtain ⟨s, hs, hc, hindex⟩ := (hfits.entries r.base i).1 hi
    rw [h.slotAt hs, openSlot_events hc, hindex]
    by_contra hlt
    have hover : u64Max < eventsAt recs r.base r.time + Record.occurrences r := by
      simp only [Record.occurrences, hvalue, ht]
      omega
    simp only [Delivery.failure] at hclean
    rw [if_pos ⟨List.ne_nil_of_mem hi, hover, by rw [hvalue]; rfl⟩] at hclean
    cases hclean
  obtain ⟨work', hrun, hcells, hsub, hadd⟩ :=
    writeSlots_ok tr work (hfits.entries_nodup r.base) hcounts
  have hslot : ∀ i s, tr.plan.retained[i]? = some s → w.openSlot (recs ++ [r]) t s =
      if i ∈ tr.plan.entries r.base then writtenSlot tr.plan r.value i (w.openSlot recs t s)
      else w.openSlot recs t s := by
    intro i s hs
    split
    · next hi =>
      obtain ⟨s', hs', hc, hindex⟩ := (hfits.entries r.base i).1 hi
      rw [hs, Option.some.injEq] at hs'
      subst hs'
      exact openSlot_written hle ht hc hindex.symm hs
    · next hi =>
      refine openSlot_other ht ?_
      by_contra hnot
      rw [not_or, Bool.not_eq_true, not_not] at hnot
      exact hi ((hfits.entries r.base i).2 ⟨s, hs, hnot.1, hnot.2.symm⟩)
  refine ⟨work', hrun, ?_, ?_⟩
  · refine List.ext_getElem? fun i => ?_
    rw [hcells i, h.slots, List.getElem?_map, List.getElem?_map]
    cases hs : tr.plan.retained[i]? with
    | none => rfl
    | some s => rw [Option.map_some, Option.map_some, Option.map_some, hslot i s hs]
  · intro i s hs hbusy
    by_cases hold : (w.openSlot recs t s).busy = true
    · exact hsub i (h.active i s hs hold)
    · rw [hslot i s hs] at hbusy
      split at hbusy
      · next hi =>
        refine hadd i hi (by rw [h.slotAt hs]; simpa using hold) fun hzero => hold ?_
        rw [hzero] at hbusy
        exact hbusy
      · exact absurd hbusy hold

/-- Taking a record that counts too many events fails. -/
theorem writeSlots_failure (hfits : tr.plan.Fits w) (ht : r.time = t) {work : List Slot × List Nat}
    (h : Ready w tr.plan recs t work) {position : Option Position} {e : Error}
    (hfailure : (Delivery.record r.base (.ok r.value) r.time position).failure tr.backend tr.plan
      recs = some e) :
    writeSlots tr r.value (tr.plan.entries r.base) work = .error e := by
  simp only [Delivery.failure] at hfailure
  split at hfailure
  · next hover =>
    cases hfailure
    refine writeSlots_error hover.1 fun i hi hcounts => ?_
    obtain ⟨s, hs, hc, hindex⟩ := (hfits.entries r.base i).1 hi
    have hlt := hover.2.1
    cases hvalue : r.value with
    | event occurrences =>
      have hle := hcounts occurrences hvalue
      rw [h.slotAt hs, openSlot_events hc, hindex] at hle
      simp only [Record.occurrences, hvalue, ht] at hlt
      omega
    | bits | real | string => rw [hvalue] at hover; cases hover.2.2
  · cases hfailure

/-! ## One delivery -/

/-- With no record at a tick yet, its slots are those of any tick up to the next record. -/
theorem Ready.advance {work : List Slot × List Nat} (hfits : plan.Fits w)
    (h : Ready w plan recs t work) (hlt : ∀ r ∈ recs, r.time < t) {t' : Nat} (ht : t ≤ t') :
    Ready w plan recs t' work := by
  have hsame : ∀ s ∈ plan.retained, w.openSlot recs t' s = w.openSlot recs t s := by
    intro s hs
    have hidle := openSlot_idle (hfits.valid s hs) fun r hr => Nat.ne_of_lt (hlt r hr)
    have hidle' := openSlot_idle (hfits.valid s hs) fun r hr =>
      Nat.ne_of_lt (Nat.lt_of_lt_of_le (hlt r hr) ht)
    have hstate : w.enteredAt recs s t' = w.enteredAt recs s t :=
      Waveform.enteredAt_quiet ht fun r hr => .inl (hlt r hr)
    have hopen : ∀ τ, w.openSlot recs τ s = ⟨stateOf (w.enteredAt recs s τ),
      (w.openSlot recs τ s).pending, false, (w.openSlot recs τ s).events⟩ := fun τ => rfl
    rw [hopen t', hopen t, hidle.1, hidle'.1, hidle.2, hidle'.2, hstate]
  refine ⟨?_, fun i s hs hbusy => ?_⟩
  · rw [h.slots]
    exact (List.map_congr_left hsame).symm
  · rw [hsame s (List.mem_of_getElem? hs)] at hbusy
    exact h.active i s hs hbusy

/-- The variables of a traversal hold the reference of the records read, at a tick that is pending
or has no record yet. -/
structure Holding (w : Waveform) (plan : Plan) (recs : List Record) (t : Nat) (st : Tally σ) :
    Prop where
  ready : Ready w plan recs t st.work
  le : ∀ r ∈ recs, r.time ≤ t
  pending : st.pendingTime = some t ∨ st.pendingTime = none ∧ ∀ r ∈ recs, r.time < t

/-- Considering a checkpoint keeps the work. -/
@[simp] theorem considerCheckpoint_work (st : Tally σ) (time : Nat) (position : Option Position) :
    (st.considerCheckpoint tr time position).work = st.work := by
  unfold Tally.considerCheckpoint
  split
  · split <;> rfl
  · rfl

/-- It keeps what was visited. -/
@[simp] theorem considerCheckpoint_visited (st : Tally σ) (time : Nat)
    (position : Option Position) :
    (st.considerCheckpoint tr time position).visited = st.visited := by
  unfold Tally.considerCheckpoint
  split
  · split <;> rfl
  · rfl

/-- A checkpoint made at a record: the state before it, at its position. -/
def MadeAt (tr : Traversal σ B) (pending : Option Nat) (slots : List Slot) (time : Nat)
    (position : Option Position) (checkpoint : Replay) : Prop :=
  ∃ start p, tr.start = some start ∧ position = some p ∧ start ≤ time ∧
    pending.all (· < start) = true ∧
    checkpoint = { position := p, start := start, stop := p.time, time := none, slots := slots }

/-- A checkpoint that is there afterwards was there before or was made here. -/
theorem considerCheckpoint_checkpoint {st : Tally σ} {time : Nat} {position : Option Position}
    {checkpoint : Replay}
    (h : (st.considerCheckpoint tr time position).checkpoint = some checkpoint) :
    st.checkpoint = some checkpoint ∨
      MadeAt tr st.pendingTime st.work.1 time position checkpoint := by
  unfold Tally.considerCheckpoint at h
  split at h
  · next start p _ hstart =>
    split at h
    · next hwindow =>
      dsimp only at h
      split at h
      · cases h
        exact .inr ⟨start, p, hstart, rfl, hwindow.1, hwindow.2, rfl⟩
      · cases h
    · exact .inl h
  · exact .inl h

/-- Taking a record that does not fail. -/
theorem take_holds (hfits : tr.plan.Fits w) (hle : ∀ r' ∈ recs, r'.time ≤ r.time) {st : Tally σ}
    (h : Ready w tr.plan recs r.time st.work) {position : Option Position}
    (hclean : (Delivery.record r.base (.ok r.value) r.time position).failure tr.backend tr.plan recs
      = none) :
    ∃ st', st.take tr r.base (.ok r.value) r.time position = (st', .continue) ∧
      Holding w tr.plan (recs ++ [r]) r.time st' ∧ st'.visited = st.visited ∧
      st'.pendingTime = some r.time ∧
      ∀ checkpoint, st'.checkpoint = some checkpoint → st.checkpoint = some checkpoint ∨
        MadeAt tr st.pendingTime st.work.1 r.time position checkpoint := by
  obtain ⟨work', hrun, hready⟩ := writeSlots_ready hfits hle rfl h hclean
  refine ⟨{ st.considerCheckpoint tr r.time position with
      work := work', pendingTime := some r.time }, ?_, ⟨hready, ?_, .inl rfl⟩, ?_, rfl, ?_⟩
  · unfold Tally.take
    dsimp only
    rw [considerCheckpoint_work, hrun]
  · intro r' hr'
    rcases List.mem_append.1 hr' with hr' | hr'
    · exact hle r' hr'
    · rw [List.mem_singleton.1 hr']
  · exact considerCheckpoint_visited st r.time position
  · exact fun checkpoint hcheckpoint => considerCheckpoint_checkpoint hcheckpoint

/-- Taking a record that fails. -/
theorem take_fails (hfits : tr.plan.Fits w) {st : Tally σ} {base time : Nat}
    {value : Except Error Value} {position : Option Position}
    (h : Ready w tr.plan recs time st.work) {e : Error}
    (hfailure : (Delivery.record base value time position).failure tr.backend tr.plan recs
      = some e) :
    ∃ st', st.take tr base value time position = (st', .break (.error e)) ∧
      st'.visited = st.visited := by
  cases value with
  | error e' => cases hfailure; exact ⟨st, rfl, rfl⟩
  | ok v =>
    have hrun := writeSlots_failure (r := ⟨base, time, v⟩) hfits rfl h hfailure
    refine ⟨st.considerCheckpoint tr time position, ?_, considerCheckpoint_visited st time position⟩
    unfold Tally.take
    dsimp only
    rw [considerCheckpoint_work, hrun]

variable (tr) in
/-- Completing the pending tick. -/
theorem complete_holds (hfits : tr.plan.Fits w) (hsorted : Chronological recs)
    (htyped : Typed w recs) {st : Tally σ} (h : Ready w tr.plan recs t st.work)
    (hle : ∀ r ∈ recs, r.time ≤ t) {c : σ} {outcome : Except Error (ControlFlow B)}
    (hvisit : sweep (shown tr.start tr.visitor) st.visited (views w tr.plan recs (some t).toList) =
      (c, outcome)) :
    ∃ st', st.complete tr t = (st', outcome) ∧ st'.visited = c ∧ st'.pendingTime = st.pendingTime ∧
      st'.checkpoint = st.checkpoint ∧
      (outcome = .ok .continue → Ready w tr.plan recs (t + 1) st'.work) := by
  obtain ⟨hshown, hready⟩ := completeTick_ready hfits hsorted htyped hle h tr.start tr.visitor
    st.visited
  have hone : views w tr.plan recs (some t).toList =
    [(t, tr.plan.retained.map (w.viewSlot recs t))] := rfl
  rw [hone, sweep_singleton] at hvisit
  rw [hvisit] at hshown
  refine ⟨(st.complete tr t).1, ?_, congrArg Prod.fst hshown, rfl, rfl, fun hout => hready ?_⟩
  · have hsnd : (st.complete tr t).2 = outcome := congrArg Prod.snd hshown
    rw [← hsnd]
  · rw [hshown]; exact hout

/-- The tick a record closes is the one the slots are at. -/
theorem Holding.closed {st : Tally σ} (h : Holding w plan recs t st) {d : Delivery} {previous : Nat}
    (hclosed : d.closed st.pendingTime = some previous) :
    previous = t ∧ st.pendingTime = some t := by
  rcases h.pending with hpending | ⟨hnone, -⟩
  · rw [hpending] at hclosed
    refine ⟨?_, hpending⟩
    cases d with
    | tick => exact (Option.some.inj hclosed).symm
    | record base value time position =>
      simp only [Delivery.closed, Option.filter_some] at hclosed
      split at hclosed
      · exact (Option.some.inj hclosed).symm
      · cases hclosed
  · rw [hnone] at hclosed
    cases d <;> cases hclosed

/-- When a record closes no tick, the slots are at the record's tick. -/
theorem Holding.at_record {st : Tally σ} (hfits : plan.Fits w) (h : Holding w plan recs t st)
    {base time : Nat} {value : Except Error Value} {position : Option Position} (hle : t ≤ time)
    (hclosed : (Delivery.record base value time position).closed st.pendingTime = none) :
    Ready w plan recs time st.work := by
  rcases h.pending with hpending | ⟨-, hlt⟩
  · rw [hpending] at hclosed
    simp only [Delivery.closed, Option.filter_some] at hclosed
    split at hclosed
    · cases hclosed
    · next heq =>
      rw [decide_eq_true_eq, not_not] at heq
      exact heq ▸ h.ready
  · exact h.ready.advance hfits hlt hle

/-- When a record closes a tick, the slots reach the record's tick. -/
theorem at_record_of_next {work : List Slot × List Nat} (hfits : plan.Fits w)
    (h : Ready w plan recs (t + 1) work) (hle : ∀ r ∈ recs, r.time ≤ t) {time : Nat}
    (htime : t ≤ time) (hne : t ≠ time) : Ready w plan recs time work :=
  h.advance hfits (fun r hr => Nat.lt_succ_of_le (hle r hr)) (by omega)

/-- The records behind a delivery are up to its tick. -/
theorem Holding.le_record {st : Tally σ} (h : Holding w plan recs t st) {time : Nat}
    (hle : t ≤ time) : ∀ r ∈ recs, r.time ≤ time :=
  fun r hr => Nat.le_trans (h.le r hr) hle

/-- A delivery that does not fail, after its completed tick is visited. -/
theorem consume_next (hfits : tr.plan.Fits w) (hsorted : Chronological recs)
    (htyped : Typed w recs) {st : Tally σ} (h : Holding w tr.plan recs t st) {d : Delivery}
    {ds : List Delivery} (hordered : Ordered t (d :: ds))
    (hclean : d.failure tr.backend tr.plan recs = none) {c : σ}
    (hvisit : sweep (shown tr.start tr.visitor) st.visited
      (views w tr.plan recs (d.closed st.pendingTime).toList) = (c, .ok .continue)) :
    ∃ st' t', consume tr st d = (st', .continue) ∧
      Holding w tr.plan (recs ++ d.record?.toList) t' st' ∧ Ordered t' ds ∧ st'.visited = c ∧
      st'.pendingTime = d.pendingAfter ∧
      ∀ checkpoint, st'.checkpoint = some checkpoint → st.checkpoint = some checkpoint ∨
        ∃ base v time p, d = .record base (.ok v) time p ∧
          MadeAt tr st.pendingTime (tr.plan.retained.map (w.openSlot recs time)) time p
            checkpoint := by
  cases d with
  | tick time =>
    obtain ⟨hle, hordered⟩ := hordered
    cases hpending : st.pendingTime with
    | none =>
      rw [hpending] at hvisit
      cases hvisit
      refine ⟨st, time + 1, by simp [consume, hpending], ?_, hordered, rfl, hpending,
        fun _ hcheckpoint => .inl hcheckpoint⟩
      rcases h.pending with hsome | ⟨-, hlt⟩
      · rw [hpending] at hsome; cases hsome
      · have hlt' : ∀ r ∈ recs, r.time < time + 1 := fun r hr => by have := hlt r hr; omega
        rw [show Delivery.record? (.tick time) = none from rfl, Option.toList_none, List.append_nil]
        exact ⟨h.ready.advance hfits hlt (by omega), fun r hr => (hlt' r hr).le,
          .inr ⟨hpending, hlt'⟩⟩
    | some previous =>
      obtain ⟨rfl, -⟩ := h.closed (d := .tick time) (by rw [hpending]; rfl)
      rw [hpending] at hvisit
      obtain ⟨st', hrun, hvisited, -, hcheckpoint, hready⟩ := complete_holds tr hfits hsorted htyped
        h.ready h.le hvisit
      have hlt' : ∀ r ∈ recs, r.time < time + 1 := fun r hr => by have := h.le r hr; omega
      refine ⟨{ st' with pendingTime := none }, time + 1, ?_, ?_, hordered, hvisited, rfl,
        fun _ hcp => .inl (hcheckpoint ▸ hcp)⟩
      · simp only [consume, hpending]
        rw [hrun]
      · rw [show Delivery.record? (.tick time) = none from rfl, Option.toList_none, List.append_nil]
        exact ⟨(hready rfl).advance hfits (fun r hr => Nat.lt_succ_of_le (h.le r hr)) (by omega),
          fun r hr => (hlt' r hr).le, .inr ⟨rfl, hlt'⟩⟩
  | record base value time position =>
    obtain ⟨hle, hordered⟩ := hordered
    cases value with
    | error e => cases hclean
    | ok v =>
      have hle' := h.le_record hle
      cases hclosed : (Delivery.record base (.ok v) time position).closed st.pendingTime with
      | none =>
        rw [hclosed] at hvisit
        cases hvisit
        have hready := h.at_record hfits hle hclosed
        obtain ⟨st', hrun, hholds, hvisited, hpending, hcheckpoint⟩ :=
          take_holds (r := ⟨base, time, v⟩) hfits hle' hready hclean
        refine ⟨st', time, ?_, hholds, hordered, hvisited, hpending, fun cp hcp => ?_⟩
        · have hfilter : st.pendingTime.filter (fun previous => decide (previous ≠ time)) = none :=
            hclosed
          simp only [consume]
          rw [hfilter]
          exact hrun
        · rcases hcheckpoint cp hcp with hold | hmade
          · exact .inl hold
          · rw [hready.slots] at hmade
            exact .inr ⟨base, v, time, position, rfl, hmade⟩
      | some previous =>
        obtain ⟨rfl, hpending⟩ := h.closed hclosed
        have hne : previous ≠ time := by
          simp only [Delivery.closed, hpending, Option.filter_some] at hclosed
          split at hclosed
          · next hne => exact of_decide_eq_true hne
          · cases hclosed
        rw [hclosed] at hvisit
        obtain ⟨st₁, hrun, hvisited, hpending', hcheckpoint, hnext⟩ :=
          complete_holds tr hfits hsorted
          htyped h.ready h.le hvisit
        have hready := at_record_of_next hfits (hnext rfl) h.le hle hne
        obtain ⟨st', htake, hholds, hvisited', hpending'', hcheckpoint'⟩ :=
          take_holds (r := ⟨base, time, v⟩) hfits hle' hready hclean
        refine ⟨st', time, ?_, hholds, hordered, hvisited'.trans hvisited, hpending'',
          fun cp hcp => ?_⟩
        · have hfilter : st.pendingTime.filter (fun previous => decide (previous ≠ time)) =
              some previous := hclosed
          simp only [consume]
          rw [hfilter]
          dsimp only
          rw [hrun]
          exact htake
        · rcases hcheckpoint' cp hcp with hold | hmade
          · exact .inl (hcheckpoint ▸ hold)
          · rw [hready.slots, hpending'] at hmade
            exact .inr ⟨base, v, time, position, rfl, hmade⟩

/-- A visitor that stops at the completed tick of a delivery. -/
theorem consume_stop (hfits : tr.plan.Fits w) (hsorted : Chronological recs)
    (htyped : Typed w recs) {st : Tally σ} (h : Holding w tr.plan recs t st) {d : Delivery} {c : σ}
    {outcome : Except Error (ControlFlow B)}
    (hvisit : sweep (shown tr.start tr.visitor) st.visited
      (views w tr.plan recs (d.closed st.pendingTime).toList) = (c, outcome))
    (hstop : outcome ≠ .ok .continue) :
    ∃ st', consume tr st d = (st', .break outcome) ∧ st'.visited = c := by
  cases hclosed : d.closed st.pendingTime with
  | none => rw [hclosed] at hvisit; cases hvisit; exact absurd rfl hstop
  | some previous =>
    obtain ⟨rfl, hpending⟩ := h.closed hclosed
    rw [hclosed] at hvisit
    obtain ⟨st', hrun, hvisited, -, -, -⟩ :=
      complete_holds tr hfits hsorted htyped h.ready h.le hvisit
    refine ⟨st', ?_, hvisited⟩
    cases d with
    | tick time =>
      simp only [consume, hpending]
      rw [hrun]
      rcases outcome with e | _ | b
      · rfl
      · exact absurd rfl hstop
      · rfl
    | record base value time position =>
      have hfilter : st.pendingTime.filter (fun previous => decide (previous ≠ time)) =
          some previous := hclosed
      simp only [consume]
      rw [hfilter]
      dsimp only
      rw [hrun]
      rcases outcome with e | _ | b
      · rfl
      · exact absurd rfl hstop
      · rfl

/-- A delivery that fails, after its completed tick is visited. -/
theorem consume_fails (hfits : tr.plan.Fits w) (hsorted : Chronological recs)
    (htyped : Typed w recs) {st : Tally σ} (h : Holding w tr.plan recs t st) {d : Delivery}
    {ds : List Delivery} (hordered : Ordered t (d :: ds)) {e : Error}
    (hfailure : d.failure tr.backend tr.plan recs = some e) {c : σ}
    (hvisit : sweep (shown tr.start tr.visitor) st.visited
      (views w tr.plan recs (d.closed st.pendingTime).toList) = (c, .ok .continue)) :
    ∃ st', consume tr st d = (st', .break (.error e)) ∧ st'.visited = c := by
  cases d with
  | tick time => cases hfailure
  | record base value time position =>
    obtain ⟨hle, -⟩ := hordered
    cases hclosed : (Delivery.record base value time position).closed st.pendingTime with
    | none =>
      rw [hclosed] at hvisit
      cases hvisit
      obtain ⟨st', hrun, hvisited⟩ := take_fails hfits (h.at_record hfits hle hclosed) hfailure
      refine ⟨st', ?_, hvisited⟩
      have hfilter : st.pendingTime.filter (fun previous => decide (previous ≠ time)) = none :=
        hclosed
      simp only [consume]
      rw [hfilter]
      exact hrun
    | some previous =>
      obtain ⟨rfl, hpending⟩ := h.closed hclosed
      have hne : previous ≠ time := by
        simp only [Delivery.closed, hpending, Option.filter_some] at hclosed
        split at hclosed
        · next hne => exact of_decide_eq_true hne
        · cases hclosed
      rw [hclosed] at hvisit
      obtain ⟨st₁, hrun, hvisited, -, -, hnext⟩ :=
        complete_holds tr hfits hsorted htyped h.ready h.le
        hvisit
      obtain ⟨st', htake, hvisited'⟩ := take_fails hfits
        (at_record_of_next hfits (hnext rfl) h.le hle hne) hfailure
      refine ⟨st', ?_, hvisited'.trans hvisited⟩
      have hfilter : st.pendingTime.filter (fun previous => decide (previous ≠ time)) =
          some previous := hclosed
      simp only [consume]
      rw [hfilter]
      dsimp only
      rw [hrun]
      exact htake

/-! ## Whole streams -/

/-- Later records do not change the slots of the ticks a delivery completes. -/
theorem views_append {ticks : List Nat} {more : List Record}
    (h : ∀ τ ∈ ticks, ∀ r ∈ more, τ < r.time) :
    views w plan (recs ++ more) ticks = views w plan recs ticks := by
  refine List.map_congr_left fun τ hτ => ?_
  rw [List.map_congr_left fun s _ => viewSlot_append (h τ hτ)]

/-- The tick a delivery completes is before what follows it. -/
theorem Holding.closed_lt {st : Tally σ} (h : Holding w plan recs t st) {d : Delivery}
    {ds : List Delivery} (hordered : Ordered t (d :: ds)) {τ : Nat}
    (hτ : d.closed st.pendingTime = some τ) : ∀ r ∈ decoded (d :: ds), τ < r.time := by
  obtain ⟨rfl, hpending⟩ := h.closed hτ
  intro r hr
  cases d with
  | tick time =>
    have := hordered.2.le r (by simpa [Delivery.record?] using hr)
    have := hordered.1
    omega
  | record base value time position =>
    have hne : τ ≠ time := by
      simp only [Delivery.closed, hpending, Option.filter_some] at hτ
      split at hτ
      · next hne => exact of_decide_eq_true hne
      · cases hτ
    have hlt : τ < time := by have := hordered.1; omega
    rw [decoded_cons] at hr
    rcases List.mem_append.1 hr with hr | hr
    · cases value with
      | error e => cases hr
      | ok v =>
        rw [show r = ⟨base, time, v⟩ by simpa [Delivery.record?] using hr]
        exact hlt
    · exact Nat.lt_of_lt_of_le hlt (hordered.2.le r hr)

/-- The slots of the ticks a stream completes, delivery by delivery. -/
theorem views_cons {st : Tally σ} (h : Holding w plan recs t st) {d : Delivery}
    {ds : List Delivery} (hordered : Ordered t (d :: ds)) :
    views w plan (recs ++ decoded (d :: ds)) (completedTicks st.pendingTime (d :: ds)) =
      views w plan recs (d.closed st.pendingTime).toList ++
        views w plan ((recs ++ d.record?.toList) ++ decoded ds)
          (completedTicks d.pendingAfter ds) := by
  have happ : ∀ (rs : List Record) xs ys, views w plan rs (xs ++ ys) =
      views w plan rs xs ++ views w plan rs ys := fun rs xs ys => List.map_append
  rw [completedTicks, happ, views_append fun τ hτ => h.closed_lt hordered (by simpa using hτ),
    decoded_cons, List.append_assoc]

/-- A checkpoint made somewhere in a stream. -/
def MadeIn (w : Waveform) (tr : Traversal σ B) (recs : List Record) (pending : Option Nat)
    (ds : List Delivery) (checkpoint : Replay) : Prop :=
  ∃ pre base v time p post, ds = pre ++ .record base (.ok v) time p :: post ∧
    MadeAt tr (pendingTick pending pre)
      (tr.plan.retained.map (w.openSlot (recs ++ decoded pre) time)) time p checkpoint

/-- A checkpoint that is made in a later part of a stream is made in the stream. -/
theorem MadeIn.cons {pending : Option Nat} {d : Delivery} {ds : List Delivery} {checkpoint : Replay}
    (h : MadeIn w tr (recs ++ d.record?.toList) d.pendingAfter ds checkpoint) :
    MadeIn w tr recs pending (d :: ds) checkpoint := by
  obtain ⟨pre, base, v, time, p, post, rfl, hmade⟩ := h
  refine ⟨d :: pre, base, v, time, p, post, rfl, ?_⟩
  rw [decoded_cons, ← List.append_assoc]
  exact hmade

variable (tr) in
/-- Running through a stream that does not fail, when the visitor goes on at every tick it
completes. -/
theorem consume_all (hfits : tr.plan.Fits w) {st : Tally σ} (h : Holding w tr.plan recs t st)
    {ds rest : List Delivery} (hordered : Ordered t (ds ++ rest))
    (hsorted : Chronological (recs ++ decoded ds)) (htyped : Typed w (recs ++ decoded ds))
    (hclean : Clean tr.backend tr.plan recs ds) {c : σ}
    (hvisit : sweep (shown tr.start tr.visitor) st.visited
      (views w tr.plan (recs ++ decoded ds) (completedTicks st.pendingTime ds)) =
        (c, .ok .continue)) :
    ∃ st' t', visit (consume tr) st ds = (st', .continue) ∧
      Holding w tr.plan (recs ++ decoded ds) t' st' ∧ Ordered t' rest ∧ st'.visited = c ∧
      st'.pendingTime = pendingTick st.pendingTime ds ∧
      ∀ checkpoint, st'.checkpoint = some checkpoint → st.checkpoint = some checkpoint ∨
        MadeIn w tr recs st.pendingTime ds checkpoint := by
  induction ds generalizing recs t st with
  | nil =>
    cases hvisit
    exact ⟨st, t, rfl, by simpa [decoded] using h, hordered, rfl, rfl, fun _ hcp => .inl hcp⟩
  | cons d ds ih =>
    rw [views_cons h (Ordered.left hordered)] at hvisit
    have hsorted' : Chronological recs := hsorted.sublist (List.sublist_append_left _ _)
    have htyped' : Typed w recs := fun r hr => htyped r (List.mem_append_left _ hr)
    rw [decoded_cons, ← List.append_assoc] at hsorted htyped ⊢
    rcases hfirst : sweep (shown tr.start tr.visitor) st.visited
      (views w tr.plan recs (d.closed st.pendingTime).toList) with ⟨c₁, outcome⟩
    by_cases hout : outcome = .ok .continue
    · subst hout
      obtain ⟨st₁, t₁, hrun, hholds, hordered₁, hvisited, hpending, hcheckpoint⟩ :=
        consume_next hfits hsorted' htyped' h hordered hclean.1 hfirst
      rw [sweep_append_continue hfirst, ← hvisited, ← hpending] at hvisit
      obtain ⟨st', t', hrun', hholds', hordered', hvisited', hpending', hcheckpoint'⟩ :=
        ih hholds hordered₁ hsorted htyped hclean.2 hvisit
      refine ⟨st', t', ?_, hholds', hordered', hvisited', ?_, fun cp hcp => ?_⟩
      · simp only [visit, hrun, hrun']
      · rw [hpending', hpending]
        rfl
      · rcases hcheckpoint' cp hcp with hold | hmade
        · rcases hcheckpoint cp hold with hold | ⟨base, v, time, p, rfl, hmade⟩
          · exact .inl hold
          · exact .inr ⟨[], base, v, time, p, ds, rfl, by simpa [decoded, pendingTick] using hmade⟩
        · rw [hpending] at hmade
          exact .inr hmade.cons
    · rw [sweep_append_stop hfirst hout] at hvisit
      cases hvisit
      exact absurd rfl hout

variable (tr) in
/-- Running through a stream that does not fail, when the visitor stops at a tick it completes. -/
theorem consume_all_stop (hfits : tr.plan.Fits w) {st : Tally σ} (h : Holding w tr.plan recs t st)
    {ds : List Delivery} (hordered : Ordered t ds) (hsorted : Chronological (recs ++ decoded ds))
    (htyped : Typed w (recs ++ decoded ds)) (hclean : Clean tr.backend tr.plan recs ds) {c : σ}
    {outcome : Except Error (ControlFlow B)}
    (hvisit : sweep (shown tr.start tr.visitor) st.visited
      (views w tr.plan (recs ++ decoded ds) (completedTicks st.pendingTime ds)) = (c, outcome))
    (hstop : outcome ≠ .ok .continue) :
    ∃ st', visit (consume tr) st ds = (st', .break outcome) ∧ st'.visited = c := by
  induction ds generalizing recs t st with
  | nil => cases hvisit; exact absurd rfl hstop
  | cons d ds ih =>
    rw [views_cons h hordered] at hvisit
    have hsorted' : Chronological recs := hsorted.sublist (List.sublist_append_left _ _)
    have htyped' : Typed w recs := fun r hr => htyped r (List.mem_append_left _ hr)
    rw [decoded_cons, ← List.append_assoc] at hsorted htyped
    rcases hfirst : sweep (shown tr.start tr.visitor) st.visited
      (views w tr.plan recs (d.closed st.pendingTime).toList) with ⟨c₁, outcome₁⟩
    by_cases hout : outcome₁ = .ok .continue
    · subst hout
      obtain ⟨st₁, t₁, hrun, hholds, hordered₁, hvisited, hpending, -⟩ :=
        consume_next hfits hsorted' htyped' h hordered hclean.1 hfirst
      rw [sweep_append_continue hfirst, ← hvisited, ← hpending] at hvisit
      obtain ⟨st', hrun', hvisited'⟩ := ih hholds hordered₁ hsorted htyped hclean.2 hvisit
      exact ⟨st', by simp only [visit, hrun, hrun'], hvisited'⟩
    · rw [sweep_append_stop hfirst hout] at hvisit
      cases hvisit
      obtain ⟨st', hrun, hvisited⟩ := consume_stop hfits hsorted' htyped' h hfirst hstop
      exact ⟨st', by simp only [visit, hrun], hvisited⟩

/-- The slots of the ticks complete before a delivery and by it. -/
theorem views_concat (xs ys : List Nat) :
    views w plan recs (xs ++ ys) = views w plan recs xs ++ views w plan recs ys :=
  List.map_append

variable (tr) in
/-- A stream that fails at a delivery publishes what was complete before it, and then fails. -/
theorem consume_failure (hfits : tr.plan.Fits w) {st : Tally σ} (h : Holding w tr.plan recs t st)
    {ds rest : List Delivery} {d : Delivery} (hordered : Ordered t (ds ++ d :: rest))
    (hsorted : Chronological (recs ++ decoded ds)) (htyped : Typed w (recs ++ decoded ds))
    (hclean : Clean tr.backend tr.plan recs ds) {e : Error}
    (hfailure : d.failure tr.backend tr.plan (recs ++ decoded ds) = some e) {c : σ}
    (hvisit : sweep (shown tr.start tr.visitor) st.visited
      (views w tr.plan (recs ++ decoded ds) (completedTicks st.pendingTime ds ++
        (d.closed (pendingTick st.pendingTime ds)).toList)) = (c, .ok .continue)) :
    ∃ st', visit (consume tr) st (ds ++ d :: rest) = (st', .break (.error e)) ∧
    st'.visited = c := by
  rw [views_concat] at hvisit
  rcases hfirst : sweep (shown tr.start tr.visitor) st.visited
    (views w tr.plan (recs ++ decoded ds) (completedTicks st.pendingTime ds)) with ⟨c₁, outcome₁⟩
  by_cases hout : outcome₁ = .ok .continue
  · subst hout
    obtain ⟨st₁, t₁, hrun, hholds, hordered₁, hvisited, hpending, -⟩ :=
      consume_all tr hfits h hordered hsorted htyped hclean hfirst
    rw [sweep_append_continue hfirst, ← hvisited, ← hpending] at hvisit
    obtain ⟨st', hrun', hvisited'⟩ :=
      consume_fails hfits hsorted htyped hholds hordered₁ hfailure hvisit
    refine ⟨st', ?_, hvisited'⟩
    rw [visit_append, hrun]
    simp only [visit, hrun']
  · rw [sweep_append_stop hfirst hout] at hvisit
    cases hvisit
    exact absurd rfl hout

variable (tr) in
/-- A stream that would fail at a delivery ends before when the visitor stops at a tick complete
before it. -/
theorem consume_failure_stop (hfits : tr.plan.Fits w) {st : Tally σ}
    (h : Holding w tr.plan recs t st) {ds rest : List Delivery} {d : Delivery}
    (hordered : Ordered t (ds ++ d :: rest)) (hsorted : Chronological (recs ++ decoded ds))
    (htyped : Typed w (recs ++ decoded ds)) (hclean : Clean tr.backend tr.plan recs ds) {c : σ}
    {outcome : Except Error (ControlFlow B)}
    (hvisit : sweep (shown tr.start tr.visitor) st.visited
      (views w tr.plan (recs ++ decoded ds) (completedTicks st.pendingTime ds ++
        (d.closed (pendingTick st.pendingTime ds)).toList)) = (c, outcome))
    (hstop : outcome ≠ .ok .continue) :
    ∃ st', visit (consume tr) st (ds ++ d :: rest) = (st', .break outcome) ∧ st'.visited = c := by
  rw [views_concat] at hvisit
  rcases hfirst : sweep (shown tr.start tr.visitor) st.visited
    (views w tr.plan (recs ++ decoded ds) (completedTicks st.pendingTime ds)) with ⟨c₁, outcome₁⟩
  by_cases hout : outcome₁ = .ok .continue
  · subst hout
    obtain ⟨st₁, t₁, hrun, hholds, hordered₁, hvisited, hpending, -⟩ :=
      consume_all tr hfits h hordered hsorted htyped hclean hfirst
    rw [sweep_append_continue hfirst, ← hvisited, ← hpending] at hvisit
    obtain ⟨st', hrun', hvisited'⟩ := consume_stop hfits hsorted htyped hholds hvisit hstop
    refine ⟨st', ?_, hvisited'⟩
    rw [visit_append, hrun]
    simp only [visit, hrun']
  · rw [sweep_append_stop hfirst hout] at hvisit
    cases hvisit
    obtain ⟨st', hrun, hvisited⟩ :=
      consume_all_stop tr hfits h hordered.left hsorted htyped hclean hfirst hstop
    refine ⟨st', ?_, hvisited⟩
    rw [visit_append, hrun]

end
end Ondas.Query
