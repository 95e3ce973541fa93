import Ondas.Query.Contract

/-!
# Event counts

An event count past `u64::MAX` is an error. The slots of a traversal, and those of the snapshots it
leaves, count within `u64` (`readTicksFrom_bounded`), and so do the ticks of a stream that is read
without an error (`Clean.counts`).
-/

namespace Ondas.Query

open Library
open Vcd (Position)

/-- Every slot counts its events within `u64`. -/
def Bounded (slots : List Slot) : Prop := ∀ slot ∈ slots, slot.events ≤ u64Max

/-! ## The slots of a traversal -/

section
variable {slots : List Slot}

/-- A change to one slot keeps the counts, if it keeps that of the slot. -/
theorem Bounded.modify (h : Bounded slots) {i : Nat} {f : Slot → Slot}
    (hf : ∀ slot, slots[i]? = some slot → (f slot).events ≤ u64Max) :
    Bounded (slots.modify i f) := by
  intro slot hslot
  obtain ⟨j, hj⟩ := List.mem_iff_getElem?.1 hslot
  rw [List.getElem?_modify] at hj
  split at hj
  · next hij =>
    subst hij
    obtain ⟨old, hold, rfl⟩ := Option.map_eq_some_iff.1 hj
    exact hf old hold
  · rw [id_map'] at hj
    exact h slot (List.mem_of_getElem? hj)

/-- A change that adds no events keeps the counts. -/
theorem Bounded.modifyAll {f : Slot → Slot} (hf : ∀ slot, (f slot).events ≤ slot.events)
    (h : Bounded slots) (positions : List Nat) : Bounded (modifyAll f slots positions) := by
  induction positions generalizing slots with
  | nil => exact h
  | cons i positions ih =>
    rw [modifyAll_cons]
    exact ih (h.modify fun slot hslot =>
      Nat.le_trans (hf slot) (h slot (List.mem_of_getElem? hslot)))

/-- A computation adds no events. -/
theorem Bounded.complete {work : List Slot × List Nat} (h : Bounded work.1) (c : Computation) :
    Bounded (c.complete work).1 := by
  unfold Computation.complete
  split
  · exact h
  · exact h.modify fun slot hslot => h slot (List.mem_of_getElem? hslot)

/-- Computed slots count no more than their operands. -/
theorem Bounded.computed {work : List Slot × List Nat} (h : Bounded work.1)
    (computations : List Computation) :
    Bounded (computations.foldl Computation.complete work).1 := by
  induction computations generalizing work with
  | nil => exact h
  | cons c computations ih => exact ih (h.complete c)

/-- Completing a tick adds no events. -/
theorem Bounded.completeTick {σ B : Type} {work : List Slot × List Nat} (h : Bounded work.1)
    (computations : List Computation) (start : Option Nat) (visitor : TickVisitor σ B) (c : σ)
    (time : Nat) : Bounded (completeTick computations start visitor c time work).1.1 := by
  have hcompared := (h.computed computations).modifyAll (f := Slot.compare) (fun _ => Nat.le_refl _)
    (computations.foldl Computation.complete work).2
  unfold Query.completeTick
  dsimp only
  split
  · exact hcompared.modifyAll (fun _ => Nat.zero_le _) _
  · exact hcompared

end

section
variable {σ B : Type} {tr : Traversal σ B} {st : Tally σ}

/-- Events are added within `u64`. -/
theorem writeSlot_bounded {value : Value} {index : Nat} {work work' : List Slot × List Nat}
    (h : Bounded work.1) (hwrite : writeSlot tr value index work = .ok work') :
    Bounded work'.1 := by
  unfold writeSlot at hwrite
  dsimp only at hwrite
  split at hwrite
  · split at hwrite
    · next hle =>
      cases hwrite
      refine h.modify fun slot hslot => ?_
      have hat : slotAt work.1 index = slot := by rw [slotAt, hslot, Option.getD_some]
      exact hat ▸ hle
    · cases hwrite
  · cases hwrite
    exact h.modify fun slot hslot => h slot (List.mem_of_getElem? hslot)

/-- Writing a value keeps the counts within their bound, or fails. -/
theorem writeSlots_bounded {value : Value} {indices : List Nat} {work work' : List Slot × List Nat}
    (h : Bounded work.1) (hwrite : writeSlots tr value indices work = .ok work') :
    Bounded work'.1 := by
  induction indices generalizing work with
  | nil => cases hwrite; exact h
  | cons index indices ih =>
    rw [writeSlots] at hwrite
    split at hwrite
    · cases hwrite
    · next next hnext => exact ih (writeSlot_bounded h hnext) hwrite

/-- The slots of a traversal and of the checkpoint it makes. -/
def Tally.Bounded (st : Tally σ) : Prop :=
  Query.Bounded st.work.1 ∧ ∀ replay, st.checkpoint = some replay → Query.Bounded replay.slots

variable (tr) in
theorem Tally.Bounded.complete (h : st.Bounded) (time : Nat) : (st.complete tr time).1.Bounded :=
  ⟨h.1.completeTick _ _ _ _ _, h.2⟩

/-- Taking a record keeps the counts within their bound. -/
theorem Tally.Bounded.take (h : st.Bounded) (base : Nat) (value : Except Error Value) (time : Nat)
    (position : Option Position) : (st.take tr base value time position).1.Bounded := by
  have hconsider : (st.considerCheckpoint tr time position).Bounded := by
    refine ⟨by rw [considerCheckpoint_work]; exact h.1, fun replay hreplay => ?_⟩
    rcases considerCheckpoint_checkpoint hreplay with hold | ⟨start, p, -, -, -, -, rfl⟩
    · exact h.2 replay hold
    · exact h.1
  unfold Tally.take
  cases value with
  | error e => exact h
  | ok value =>
    dsimp only
    split
    · exact hconsider
    · next work hwork => exact ⟨writeSlots_bounded hconsider.1 hwork, hconsider.2⟩

/-- The callback of a read keeps the counts. -/
theorem consume_bounded (tr : Traversal σ B) (d : Delivery) (h : st.Bounded) :
    (consume tr st d).1.Bounded := by
  cases d with
  | tick time =>
    unfold consume
    dsimp only
    split
    · exact h
    · next previous _ =>
      have hcomplete := h.complete tr previous
      split
      · next hrun => rw [hrun] at hcomplete; exact hcomplete
      · next hrun => rw [hrun] at hcomplete; exact hcomplete
  | record base value time position =>
    unfold consume
    dsimp only
    split
    · exact h.take base value time position
    · next previous _ =>
      have hcomplete := h.complete tr previous
      split
      · next hrun =>
        rw [hrun] at hcomplete
        exact hcomplete.take base value time position
      · next hrun => rw [hrun] at hcomplete; exact hcomplete

end

/-! ## The slots of snapshots -/

/-- The snapshots of a selection count within `u64`. -/
def Selection.Bounded (sel : Selection) : Prop :=
  ∀ replay, sel.replay = some replay ∨ sel.checkpoint = some replay → Query.Bounded replay.slots

section
variable {σ B : Type} {sizes : Sizes} {src : Source} {w : Waveform} {signals : List Signal}
  {sel : Selection} {whole : List Record} {stored : Position → List Record → Prop}

/-- Empty slots count nothing. -/
theorem empty_bounded (n : Nat) : Bounded (List.replicate n Slot.empty) := by
  intro slot hslot
  rw [(List.mem_replicate.1 hslot).2]
  exact Nat.zero_le _

/-- A state computed in parallel has no events. -/
theorem seedSlots_bounded (plan : Plan) (samples : List Sample) :
    Bounded (seedSlots plan samples) := by
  unfold seedSlots
  generalize hslots : List.replicate plan.retained.length Slot.empty = slots
  have h : Bounded slots := hslots ▸ empty_bounded _
  clear hslots
  induction samples generalizing slots with
  | nil => exact h
  | cons sample samples ih =>
    refine ih _ ?_
    unfold seedSlot
    split
    · exact h.modifyAll (f := fun slot => { slot with state := some _ }) (fun _ => Nat.le_refl _) _
    · exact h

variable (sizes src) in
/-- A read may start from a replay without leaving the bound. -/
theorem Selection.Bounded.seed (h : sel.Bounded) (start : Option Nat) :
    (sel.seed sizes src start).Bounded := by
  unfold Selection.seed
  split
  · split
    · exact h
    · split
      · exact h
      · dsimp only
        split
        · rintro replay (hreplay | hreplay)
          · exact h replay (.inl hreplay)
          · cases hreplay
            exact seedSlots_bounded _ _
        · exact h
  · exact h

/-- A traversal starts with the counts of its snapshot. -/
theorem Selection.Bounded.tally (h : sel.Bounded) (start : Option Nat) (stop : Nat) (c : σ) :
    (sel.tally start stop c).Bounded := by
  refine ⟨?_, fun replay hreplay => h replay (.inr hreplay)⟩
  show Query.Bounded (restored sel.plan (sel.resumed start stop))
  cases hresumed : sel.resumed start stop with
  | none => exact empty_bounded _
  | some replay =>
    refine h replay ?_
    rcases Option.or_eq_some_iff.1 hresumed with hsome | ⟨-, hsome⟩
    · exact .inl (Option.filter_eq_some_iff.1 hsome).1
    · exact .inr (Option.filter_eq_some_iff.1 hsome).1

/-- A traversal of a read that hands over its deliveries keeps the counts. -/
theorem readTicksFrom_bounded {start : Option Nat} {stop : Nat} {visitor : TickVisitor σ B} {c : σ}
    {ds : List Delivery} {ending : Except Error (Option Position)} (h : sel.Bounded)
    (hanswers : src.Answers sel.plan.bases stop
      (((sel.seed sizes src start).resumed start stop).map Replay.position) ds ending) :
    (sel.readTicksFrom sizes src start stop visitor c).1.Bounded := by
  have hseed := h.seed sizes src start
  have hplan : (sel.seed sizes src start).plan = sel.plan := by
    have h := congrArg Selection.plan (sel.seed_cleared sizes src start)
    exact h
  rw [← hplan] at hanswers
  unfold Selection.readTicksFrom
  generalize sel.seed sizes src start = sel₁ at hseed hanswers
  dsimp only
  rw [hanswers]
  have htally : (visit (consume ⟨sel₁.plan, sizes, src.backend, start, visitor⟩)
      (sel₁.tally start stop c) ds).1.Bounded :=
    visit_invariant (fun st d _ hst => consume_bounded _ d hst) (hseed.tally start stop c)
  have hcleared : sel₁.cleared.Bounded := by rintro replay (hreplay | hreplay) <;> cases hreplay
  rcases hrun : visit (consume ⟨sel₁.plan, sizes, src.backend, start, visitor⟩)
    (sel₁.tally start stop c) ds with ⟨st, _ | b⟩
  all_goals rw [hrun] at htally
  · cases ending with
    | error e => exact hcleared
    | ok position =>
      dsimp only
      split
      · rintro replay (hreplay | hreplay)
        · obtain ⟨p, -, rfl⟩ := Option.map_eq_some_iff.1 hreplay
          exact htally.1
        · exact htally.2 replay hreplay
      · next time _ =>
        have hcomplete := htally.complete ⟨sel₁.plan, sizes, src.backend, start, visitor⟩ time
        split
        · next hrun =>
          rw [hrun] at hcomplete
          rintro replay (hreplay | hreplay)
          · obtain ⟨p, -, rfl⟩ := Option.map_eq_some_iff.1 hreplay
            exact htally.1
          · exact hcomplete.2 replay hreplay
        · exact hcleared
  · cases b <;> exact hcleared

/-- Operations keep the counts of the snapshots. -/
theorem Selection.Reached.bounded (h : sel.Reached sizes src w signals)
    (htries : src.Tries w sel.plan whole stored) : sel.Bounded := by
  induction h with
  | new hnew =>
    unfold Selection.new at hnew
    split at hnew
    · cases hnew
    · cases hnew
      rintro replay (hreplay | hreplay) <;> cases hreplay
  | @read sel₀ σ B start stop visitor c h ih =>
    have hplan : (sel₀.readTicksFrom sizes src start stop visitor c).1.plan = sel₀.plan :=
      readTicksFrom_plan
    rw [hplan] at htries
    have hcleared := sel₀.seed_cleared sizes src start
    have hseeded : (sel₀.seed sizes src start).waveform = w ∧
        (sel₀.seed sizes src start).plan = sel₀.plan := by
      have hw := congrArg Selection.waveform hcleared
      have hp := congrArg Selection.plan hcleared
      exact ⟨Eq.trans hw h.waveform_eq, hp⟩
    have hsound := ((h.sound htries).seed (h.waveform_eq ▸ htries.toCarries) sizes start)
    obtain ⟨done, rest, t, hstarts, -⟩ := hsound.startsAt start stop c
    obtain ⟨ds, later, ending, hanswers, -⟩ := Source.Tries.starts
      (by rw [hseeded.1, hseeded.2]; exact htries) hstarts
    rw [hseeded.2] at hanswers
    exact readTicksFrom_bounded (ih htries) hanswers
  | cleared _ _ => rintro replay (hreplay | hreplay) <;> cases hreplay

/-! ## The ticks of a stream -/

/-- A stream that is read without an error counts the events of its selected histories within
`u64`, from a tick on, if those before it do. -/
theorem Clean.counts {backend : String} {plan : Plan} {before : List Record} {ds : List Delivery}
    (hclean : Clean backend plan before ds) {base t : Nat} (hbase : plan.entries base ≠ [])
    (hbefore : eventsAt before base t ≤ u64Max) :
    eventsAt (before ++ decoded ds) base t ≤ u64Max := by
  induction ds generalizing before with
  | nil => rw [show decoded [] = [] from rfl, List.append_nil]; exact hbefore
  | cons d ds ih =>
    rw [decoded_cons, ← List.append_assoc]
    refine ih hclean.2 ?_
    have hfailure := hclean.1
    cases d with
    | tick time => rw [show (Delivery.tick time).record? = none from rfl, Option.toList_none,
        List.append_nil]; exact hbefore
    | record base' value time position =>
      cases value with
      | error e => cases hfailure
      | ok v =>
        simp only [Delivery.failure] at hfailure
        rw [show (Delivery.record base' (.ok v) time position).record? =
          some ⟨base', time, v⟩ from rfl, Option.toList_some, eventsAt_append]
        by_cases hsame : base' = base ∧ time = t
        · obtain ⟨rfl, rfl⟩ := hsame
          have hone : eventsAt [⟨base', time, v⟩] base' time =
              Record.occurrences ⟨base', time, v⟩ := by
            simp [eventsAt]
          rw [hone]
          split at hfailure
          · cases hfailure
          · next hover =>
            by_contra hlt
            refine hover ⟨hbase, Nat.lt_of_not_le hlt, ?_⟩
            cases v with
            | event occurrences => rfl
            | bits | real | string =>
              exact absurd hbefore (by simpa [Record.occurrences] using hlt)
        · have hzero : eventsAt [⟨base', time, v⟩] base t = 0 := by
            unfold eventsAt
            rw [List.filter_cons_of_neg (by simpa using hsame)]
            rfl
          rw [hzero, Nat.add_zero]
          exact hbefore

end
end Ondas.Query
