import Mathlib.Data.List.Sort
import Ondas.Query.Run

/-!
# Traversals from snapshots

What a selection may rely on of its reader (`Source.Serves`): a read from the start delivers the
records of the stream up to its end, a position stands for the records behind it, and a read from
there delivers those.

`Replay.Valid` says when a snapshot is worth resuming: its slots hold the reference of the records
before its position. From a selection whose snapshots are valid, `readTicksFrom` publishes the same
ticks with the same slots as from the start, and leaves valid snapshots (`readTicksFrom_succeeds`,
`readTicksFrom_stops`).
-/

namespace Ondas.Query

open Library
open Vcd (Position)

/-! ## The ticks of a window -/

/-- The ticks a traversal publishes: those recorded, from the start of its window on. -/
def published (recs : List Record) (start : Option Nat) : List Nat :=
  (ticksOf recs).filter fun t => start.all fun start => decide (start ≤ t)

theorem published_increasing {recs : List Record} (h : Chronological recs) (start : Option Nat) :
    (published recs start).Pairwise (· < ·) :=
  (ticksOf_increasing h).sublist List.filter_sublist

/-- The ticks that are published are the recorded ones from the start on. -/
theorem mem_published {recs : List Record} {start : Option Nat} {t : Nat} :
    t ∈ published recs start ↔ (∃ r ∈ recs, r.time = t) ∧ ∀ s, start = some s → s ≤ t := by
  rw [published, List.mem_filter, mem_ticksOf]
  cases start <;> simp

/-- Every delivery of a stream decodes, or is the end of a tick. -/
def Decodes (ds : List Delivery) : Prop :=
  ∀ d ∈ ds, ∀ base e time p, d ≠ .record base (.error e) time p

/-- The ticks a stream completes, with the one that stays pending, are those of its records and the
one pending before. -/
theorem mem_completedTicks {pending : Option Nat} {ds : List Delivery} (hdecodes : Decodes ds)
    {τ : Nat} : τ ∈ completedTicks pending ds ++ (pendingTick pending ds).toList ↔
      pending = some τ ∨ ∃ r ∈ decoded ds, r.time = τ := by
  induction ds generalizing pending with
  | nil => simp [completedTicks, pendingTick, decoded]
  | cons d ds ih =>
    have ih' := @ih d.pendingAfter fun d' hd' => hdecodes d' (List.mem_cons_of_mem _ hd')
    have hstep : τ ∈ completedTicks pending (d :: ds) ++ (pendingTick pending (d :: ds)).toList ↔
        d.closed pending = some τ ∨ d.pendingAfter = some τ ∨ ∃ r ∈ decoded ds, r.time = τ := by
      rw [← ih']
      simp [completedTicks, pendingTick]
    rw [hstep, decoded_cons]
    cases d with
    | tick time => simp [Delivery.closed, Delivery.pendingAfter, Delivery.record?]
    | record base value time position =>
      cases value with
      | error e => exact absurd rfl (hdecodes _ (by simp) base e time position)
      | ok v =>
        simp only [Delivery.closed, Delivery.pendingAfter, Delivery.record?, Option.toList_some,
          List.mem_append, List.mem_singleton, or_and_right, exists_or, exists_eq_left,
          Option.some.injEq]
        by_cases hτ : time = τ
        · simp [hτ]
        · cases pending with
          | none => simp
          | some previous =>
            by_cases hp : previous = τ
            · subst hp; simp [Ne.symm hτ]
            · simp [Option.filter_some, hp]

/-- The ticks a stream completes increase. -/
theorem completedTicks_increasing {t : Nat} {pending : Option Nat} {ds : List Delivery}
    (hordered : Ordered t ds) (hpending : pending = none ∨ pending = some t) :
    (completedTicks pending ds ++ (pendingTick pending ds).toList).Pairwise (· < ·) ∧
      ∀ τ ∈ completedTicks pending ds ++ (pendingTick pending ds).toList, t ≤ τ := by
  induction ds generalizing t pending with
  | nil => rcases hpending with rfl | rfl <;> simp [completedTicks, pendingTick]
  | cons d ds ih =>
    -- The tick this delivery closes is the pending one, and the others come after it.
    obtain ⟨t', hordered', hpending', hle, hlt⟩ : ∃ t', Ordered t' ds ∧
        (d.pendingAfter = none ∨ d.pendingAfter = some t') ∧ t ≤ t' ∧
        ∀ τ, d.closed pending = some τ → τ = t ∧ t < t' := by
      cases d with
      | tick time =>
        refine ⟨time + 1, hordered.2, .inl rfl, Nat.le_succ_of_le hordered.1, fun τ hτ => ?_⟩
        rcases hpending with rfl | rfl
        · cases hτ
        · exact ⟨(Option.some.inj hτ).symm, Nat.lt_succ_of_le hordered.1⟩
      | record base value time position =>
        refine ⟨time, hordered.2, .inr rfl, hordered.1, fun τ hτ => ?_⟩
        rcases hpending with rfl | rfl
        · cases hτ
        · simp only [Delivery.closed, Option.filter_some] at hτ
          split at hτ
          · next hne =>
            exact ⟨(Option.some.inj hτ).symm,
              Nat.lt_of_le_of_ne hordered.1 (of_decide_eq_true hne)⟩
          · cases hτ
    obtain ⟨hincreasing, hge⟩ := ih hordered' hpending'
    rw [completedTicks, List.append_assoc]
    show (_ ++ (completedTicks d.pendingAfter ds ++
      (pendingTick d.pendingAfter ds).toList)).Pairwise
      (· < ·) ∧ ∀ τ ∈ _ ++ (completedTicks d.pendingAfter ds ++
        (pendingTick d.pendingAfter ds).toList), t ≤ τ
    cases hclosed : d.closed pending with
    | none => exact ⟨hincreasing, fun τ hτ => Nat.le_trans hle (hge τ hτ)⟩
    | some τ =>
      obtain ⟨rfl, hlt'⟩ := hlt τ hclosed
      refine ⟨.cons (fun τ' hτ' => Nat.lt_of_lt_of_le hlt' (hge τ' hτ')) hincreasing, ?_⟩
      intro τ' hτ'
      rcases List.mem_cons.1 hτ' with rfl | hτ'
      · exact Nat.le_refl _
      · exact Nat.le_trans hle (hge τ' hτ')

/-! ## What a reader must do -/

/-- A read hands its deliveries to any callback, until it breaks, and ends in one way. -/
def Source.Answers (src : Source) (bases : List Signal) (stop : Nat) (origin : Option Position)
    (ds : List Delivery) (ending : Except Error (Option Position)) : Prop :=
  ∀ {σ B : Type} (callback : σ → Delivery → σ × ControlFlow B) (c : σ),
    src.read bases stop origin callback c =
      match visit callback c ds with
      | (c, .break b) => (c, .ok (.break b), none)
      | (c, .continue) =>
        match ending with
        | .error e => (c, .error e, none)
        | .ok position => (c, .ok .continue, position)

/-- The records of a stream up to an end. -/
def upTo (stop : Nat) (recs : List Record) : List Record :=
  recs.takeWhile fun r => decide (r.time ≤ stop)

/-- The records of a stream past an end. -/
def past (stop : Nat) (recs : List Record) : List Record :=
  recs.dropWhile fun r => decide (r.time ≤ stop)

/-- What a read up to an end delivers of the records ahead of it: those up to the end, and positions
that stand (`stored`) for the records behind them. -/
structure Delivers (stored : Position → List Record → Prop) (stop : Nat) (recs : List Record)
    (ds : List Delivery) (final : Option Position) : Prop where
  decoded : decoded ds = upTo stop recs
  decodes : Decodes ds
  ordered : ∀ t, (∀ r ∈ recs, t ≤ r.time) → Ordered t ds
  located : ∀ pre base v time p post, ds = pre ++ .record base (.ok v) time (some p) :: post →
    stored p (⟨base, time, v⟩ :: Query.decoded post ++ past stop recs) ∧ p.time = time ∧
      ∀ τ, .tick τ ∉ pre
  final : ∀ p, final = some p → stored p (past stop recs) ∧ p.time ≤ stop ∧ ∀ τ, .tick τ ∉ ds
  ticks : ∀ τ, .tick τ ∈ ds → τ ≤ stop

/-- What a read that may fail delivers of the records ahead of it: some first part, `later` being
the others. Its tick ends and the times of its failures are true of the others too, and a read that
does not fail delivers all records up to its end. -/
structure Attempts (stored : Position → List Record → Prop) (stop : Nat) (recs later : List Record)
    (ds : List Delivery) (ending : Except Error (Option Position)) : Prop where
  split : recs = decoded ds ++ later
  le : ∀ r ∈ decoded ds, r.time ≤ stop
  ordered : ∀ t, (∀ r ∈ recs, t ≤ r.time) → Ordered t ds
  ticks : ∀ τ, .tick τ ∈ ds → ∀ r ∈ later, τ < r.time
  failures : ∀ base e t p, .record base (.error e) t p ∈ ds → ∀ r ∈ later, t ≤ r.time
  ended : ∀ final, ending = .ok final → Decodes ds → Delivers stored stop recs ds final

/-- The observation of a handle that the records of a stream give at a tick. -/
def Waveform.sampleAt (w : Waveform) (recs : List Record) (t : Nat) (signal : Signal) : Sample :=
  if signal.encoding = .event then .event signal (countAt recs signal t)
  else match w.committedAt recs signal t with
    | some (v, changedAt) => .value signal v changedAt
    | none => .missing signal

/-- A reader carries a stream of records: what it computes in parallel is the state of the
stream. -/
structure Source.Carries (src : Source) (w : Waveform) (plan : Plan) (whole : List Record)
    (stored : Position → List Record → Prop) : Prop where
  chronological : Chronological whole
  typed : Typed w whole
  span : ∀ r ∈ whole, r.time ≤ (w.timeSpan.map TimeSpan.last).getD u64Max
  parallelPrefix : ∀ t samples p, src.parallelPrefix plan.bases t = some (samples, p) →
    stored p (past t whole) ∧ p.time ≤ t ∧ samples = plan.bases.map (w.sampleAt whole t)

/-- A reader reads a stream of records for the histories of a plan, from the start and from its
positions. -/
structure Source.Reads (src : Source) (w : Waveform) (plan : Plan) (whole : List Record)
    (stored : Position → List Record → Prop) : Prop
    extends Source.Carries src w plan whole stored where
  fresh : ∀ stop, ∃ ds final, src.Answers plan.bases stop none ds (.ok final) ∧
    Delivers stored stop whole ds final
  resume : ∀ p done rest stop, whole = done ++ rest → stored p rest → p.time ≤ stop →
    ∃ ds final, src.Answers plan.bases stop (some p) ds (.ok final) ∧
      Delivers stored stop rest ds final

/-- A reader that may fail reads a stream of records for the histories of a plan. -/
structure Source.Tries (src : Source) (w : Waveform) (plan : Plan) (whole : List Record)
    (stored : Position → List Record → Prop) : Prop
    extends Source.Carries src w plan whole stored where
  fresh : ∀ stop, ∃ ds later ending, src.Answers plan.bases stop none ds ending ∧
    Attempts stored stop whole later ds ending
  resume : ∀ p done rest stop, whole = done ++ rest → stored p rest → p.time ≤ stop →
    ∃ ds later ending, src.Answers plan.bases stop (some p) ds ending ∧
      Attempts stored stop rest later ds ending

/-- Every tick of a stream counts its events within `u64`. -/
def Counted (whole : List Record) : Prop := ∀ base t, eventsAt whole base t ≤ u64Max

/-- A reader serves a stream of records to the histories of a plan: it reads it, and no event count
of the stream overflows. -/
structure Source.Serves (src : Source) (w : Waveform) (plan : Plan) (whole : List Record)
    (stored : Position → List Record → Prop) : Prop
    extends Source.Reads src w plan whole stored where
  counts : Counted whole

/-! ## Snapshots worth resuming -/

/-- A snapshot splits the stream: its slots hold the records before its position. -/
structure Replay.Splits (w : Waveform) (plan : Plan) (stored : Position → List Record → Prop)
    (done rest : List Record) (replay : Replay) : Prop where
  stored : stored replay.position rest
  position_le : replay.position.time ≤ replay.stop
  slots : replay.slots = plan.retained.map (w.openSlot done replay.start)
  before : ∀ r ∈ done, r.time ≤ replay.start
  after : ∀ r ∈ rest, replay.start ≤ r.time
  done_le : ∀ r ∈ done, r.time ≤ replay.stop
  time : replay.time = some replay.start ∧ (∃ r ∈ done, r.time = replay.start) ∨
    replay.time = none ∧ ∀ r ∈ done, r.time < replay.start

/-- A snapshot of a stream. -/
def Replay.Valid (w : Waveform) (plan : Plan) (whole : List Record)
    (stored : Position → List Record → Prop) (replay : Replay) : Prop :=
  ∃ done rest, whole = done ++ rest ∧ replay.Splits w plan stored done rest

/-- A selection whose snapshots are valid. -/
structure Selection.Sound (sel : Selection) (whole : List Record)
    (stored : Position → List Record → Prop) : Prop where
  plans : sel.plan.Plans sel.waveform sel.signals
  replay : ∀ replay, sel.replay = some replay → replay.Valid sel.waveform sel.plan whole stored
  checkpoint : ∀ replay, sel.checkpoint = some replay →
    replay.Valid sel.waveform sel.plan whole stored

/-- A fresh selection has no snapshots. -/
theorem Selection.new_sound {w : Waveform} {signals : List Signal} {sel : Selection}
    (h : Selection.new w signals = .ok sel) (whole : List Record)
    (stored : Position → List Record → Prop) :
    sel.Sound whole stored ∧ sel.waveform = w ∧ sel.signals = signals := by
  unfold Selection.new at h
  split at h
  · cases h
  · next plan hplan =>
    cases h
    exact ⟨⟨Plan.new_plans hplan, nofun, nofun⟩, rfl, rfl⟩

/-- Where a traversal starts in the stream. -/
structure StartsAt {σ : Type} (w : Waveform) (plan : Plan) (whole : List Record)
    (stored : Position → List Record → Prop) (start : Option Nat) (stop : Nat) (st : Tally σ)
    (origin : Option Position) (done rest : List Record) (t : Nat) : Prop where
  split : whole = done ++ rest
  holding : Holding w plan done t st
  after : ∀ r ∈ rest, t ≤ r.time
  done_le : ∀ r ∈ done, r.time ≤ stop
  origin : origin = none ∧ done = [] ∨ ∃ p, origin = some p ∧ stored p rest ∧ p.time ≤ stop
  pending : ∀ τ, st.pendingTime = some τ → ∃ r ∈ done, r.time = τ
  window : ∀ r ∈ done, (∀ s, start = some s → s ≤ r.time) → st.pendingTime = some r.time
  early : st.pendingTime = none → ∀ s, start = some s → ∀ r ∈ done, r.time < s

section
variable {w : Waveform} {plan : Plan} {whole : List Record}
  {stored : Position → List Record → Prop}

/-- Empty slots hold the empty stream. -/
theorem openSlot_nil (t : Nat) (signal : Signal) (hvalid : w.Valid signal) :
    w.openSlot [] t signal = .empty := by
  have hquiet : ∀ r ∈ ([] : List Record), r.time ≠ t := nofun
  have hidle := openSlot_idle hvalid hquiet
  have hentered : w.enteredAt [] signal t = none := by
    have htyped : Typed w [] := nofun
    have : w.enteringAt [] signal t = none := by
      rw [← Option.not_isSome_iff_eq_none, Bool.not_eq_true, Waveform.enteringAt,
        Waveform.value_isSome (Typed.enteringAt htyped t) hvalid]
      exact Waveform.touched_false hvalid
    unfold Waveform.enteredAt entered
    rw [this]
    rfl
  have hopen : w.openSlot [] t signal = ⟨stateOf (w.enteredAt [] signal t),
    (w.openSlot [] t signal).pending, false, (w.openSlot [] t signal).events⟩ := rfl
  rw [hopen, hidle.1, hidle.2, hentered]
  rfl

/-- A selection resumes a valid snapshot, or starts from empty slots. -/
theorem Selection.Sound.startsAt {sel : Selection} (h : sel.Sound whole stored)
    (start : Option Nat) (stop : Nat) {σ : Type} (c : σ) :
    ∃ done rest t, StartsAt sel.waveform sel.plan whole stored start stop
      (sel.tally start stop c) ((sel.resumed start stop).map Replay.position) done rest t ∧
      t = ((sel.resumed start stop).map Replay.start).getD 0 := by
  have hactive : ∀ (slots : List Slot) done t, slots =
      sel.plan.retained.map (sel.waveform.openSlot done t) →
      Ready sel.waveform sel.plan done t
        (slots, (List.range slots.length).filter fun i => (slotAt slots i).busy) := by
    rintro slots done t rfl
    refine ⟨rfl, fun i s hs hbusy => ?_⟩
    obtain ⟨hlt, -⟩ := List.getElem?_eq_some_iff.1 hs
    have hslot := slotAt_mapped (f := sel.waveform.openSlot done t) hs
    simp [hlt, hslot, hbusy]
  cases hresumed : sel.resumed start stop with
  | none =>
    refine ⟨[], whole, 0, ⟨rfl, ⟨?_, nofun, .inr ⟨?_, nofun⟩⟩, fun r _ => Nat.zero_le _, nofun,
      .inl ⟨rfl, rfl⟩, ?_, nofun, fun _ _ _ _ => nofun⟩, rfl⟩
    · unfold Selection.tally restored
      rw [hresumed]
      refine hactive _ [] 0 ?_
      show List.replicate sel.plan.retained.length Slot.empty = _
      rw [← List.map_const']
      exact List.map_congr_left fun s hs => (openSlot_nil 0 s (h.plans.valid s hs)).symm
    · simp [Selection.tally, hresumed]
    · simp [Selection.tally, hresumed]
  | some replay =>
    have heligible : replay.eligible start stop = true ∧
        replay.Valid sel.waveform sel.plan whole stored := by
      unfold Selection.resumed at hresumed
      rcases Option.or_eq_some_iff.1 hresumed with hsome | ⟨-, hsome⟩
      · obtain ⟨hreplay, heligible⟩ := Option.filter_eq_some_iff.1 hsome
        exact ⟨heligible, h.replay replay hreplay⟩
      · obtain ⟨hreplay, heligible⟩ := Option.filter_eq_some_iff.1 hsome
        exact ⟨heligible, h.checkpoint replay hreplay⟩
    obtain ⟨heligible, done, rest, hsplit, hsplits⟩ := heligible
    unfold Replay.eligible at heligible
    simp only [Bool.and_eq_true, decide_eq_true_eq, Option.any_eq_true] at heligible
    obtain ⟨⟨s, hs, hstart⟩, hstop⟩ := heligible
    have hpendingTime : (sel.tally start stop c).pendingTime = replay.time := by
      simp [Selection.tally, hresumed]
    refine ⟨done, rest, replay.start, ⟨hsplit, ⟨?_, hsplits.before, ?_⟩, hsplits.after,
      fun r hr => Nat.le_trans (hsplits.done_le r hr) hstop,
      .inr ⟨replay.position, rfl, hsplits.stored, Nat.le_trans hsplits.position_le hstop⟩, ?_, ?_,
      ?_⟩, rfl⟩
    · unfold Selection.tally restored
      rw [hresumed]
      exact hactive _ done replay.start hsplits.slots
    · rw [hpendingTime]
      rcases hsplits.time with ⟨hsome, -⟩ | ⟨hnone, hlt⟩
      · exact .inl hsome
      · exact .inr ⟨hnone, hlt⟩
    · rw [hpendingTime]
      intro τ hτ
      rcases hsplits.time with ⟨hsome, hmem⟩ | ⟨hnone, -⟩
      · rw [hsome, Option.some.injEq] at hτ
        exact hτ ▸ hmem
      · rw [hnone] at hτ; cases hτ
    · rw [hpendingTime]
      intro r hr hwindow
      have hge := hwindow s hs
      rcases hsplits.time with ⟨hsome, -⟩ | ⟨-, hlt⟩
      · rw [hsome, Option.some.injEq]
        exact Nat.le_antisymm (Nat.le_trans hstart hge) (hsplits.before r hr)
      · have := hlt r hr
        omega
    · rw [hpendingTime]
      intro hnone s' hs' r hr
      rw [hs, Option.some.injEq] at hs'
      subst hs'
      rcases hsplits.time with ⟨hsome, -⟩ | ⟨-, hlt⟩
      · rw [hsome] at hnone; cases hnone
      · exact Nat.lt_of_lt_of_le (hlt r hr) hstart

/-! ## Traversals -/

/-- The records a traversal has read when its reader is at its end: those up to the end. -/
theorem StartsAt.upTo_eq {σ : Type} {start : Option Nat} {stop : Nat} {st : Tally σ}
    {origin : Option Position} {done rest : List Record} {t : Nat}
    (h : StartsAt w plan whole stored start stop st origin done rest t) :
    upTo stop whole = done ++ upTo stop rest ∧ past stop whole = past stop rest := by
  have hdone : ∀ r ∈ done, decide (r.time ≤ stop) = true := fun r hr => by
    simpa using h.done_le r hr
  constructor
  · rw [h.split, upTo, List.takeWhile_append_of_pos hdone, upTo]
  · rw [h.split, past, List.dropWhile_append_of_pos hdone, past]

/-- The records up to an end are a first part of an ordered stream. -/
theorem upTo_append_past (stop : Nat) (recs : List Record) :
    upTo stop recs ++ past stop recs = recs :=
  List.takeWhile_append_dropWhile

theorem upTo_le {stop : Nat} {recs : List Record} : ∀ r ∈ upTo stop recs, r.time ≤ stop :=
  fun r hr => by simpa using List.mem_takeWhile_imp hr

theorem upTo_chronological {recs : List Record} (h : Chronological recs) (stop : Nat) :
    Chronological (upTo stop recs) :=
  h.sublist (List.takeWhile_sublist _)

/-- The records past an end of an ordered stream are past the end. -/
theorem past_gt {stop : Nat} {recs : List Record} (h : Chronological recs) :
    ∀ r ∈ past stop recs, stop < r.time := by
  intro r hr
  have hsorted : Chronological (past stop recs) := h.sublist (List.dropWhile_sublist _)
  cases hpast : past stop recs with
  | nil => rw [hpast] at hr; cases hr
  | cons first rest =>
    have hfirst : stop < first.time := by
      have hhead := List.head?_dropWhile_not (fun r : Record => decide (r.time ≤ stop)) recs
      rw [show recs.dropWhile _ = past stop recs from rfl, hpast] at hhead
      simpa using hhead
    rw [hpast] at hr hsorted
    rcases List.mem_cons.1 hr with rfl | hr
    · exact hfirst
    · exact Nat.lt_of_lt_of_le hfirst ((List.pairwise_cons.1 hsorted).1 r hr)

/-- The records up to an end of an ordered stream. -/
theorem mem_upTo {stop : Nat} {recs : List Record} (h : Chronological recs) {r : Record} :
    r ∈ upTo stop recs ↔ r ∈ recs ∧ r.time ≤ stop := by
  refine ⟨fun hr => ⟨(List.takeWhile_sublist _).subset hr, upTo_le r hr⟩, fun ⟨hr, hle⟩ => ?_⟩
  rw [← upTo_append_past stop recs] at hr
  rcases List.mem_append.1 hr with hr | hr
  · exact hr
  · exact absurd (past_gt h r hr) (Nat.not_lt.2 hle)

/-- A read that delivers its records is an attempt to. -/
theorem Delivers.attempts {stop : Nat} {recs : List Record} {ds : List Delivery}
    {final : Option Position} (h : Delivers stored stop recs ds final)
    (hsorted : Chronological recs) :
    Attempts stored stop recs (past stop recs) ds (.ok final) where
  split := by rw [h.decoded, upTo_append_past]
  le := fun r hr => upTo_le r (h.decoded ▸ hr)
  ordered := h.ordered
  ticks := fun τ hτ r hr => Nat.lt_of_le_of_lt (h.ticks τ hτ) (past_gt hsorted r hr)
  failures := fun base e t p hmem => absurd rfl (h.decodes _ hmem base e t p)
  ended := fun final' heq _ => by cases heq; exact h

/-- A reader that does not fail is one that may. -/
theorem Source.Reads.tries {src : Source} (h : src.Reads w plan whole stored) :
    src.Tries w plan whole stored where
  toCarries := h.toCarries
  fresh := fun stop => by
    obtain ⟨ds, final, hanswers, hds⟩ := h.fresh stop
    exact ⟨ds, _, _, hanswers, hds.attempts h.chronological⟩
  resume := fun p done rest stop hsplit hstored htime => by
    obtain ⟨ds, final, hanswers, hds⟩ := h.resume p done rest stop hsplit hstored htime
    have hrest : Chronological rest := by
      have hsorted := h.chronological
      rw [hsplit] at hsorted
      exact hsorted.sublist (List.sublist_append_right _ _)
    exact ⟨ds, _, _, hanswers, hds.attempts hrest⟩

/-- A stream that decodes and counts within `u64` does not fail. -/
theorem Decodes.clean {backend : String} {before : List Record} {ds : List Delivery}
    (hdecodes : Decodes ds) (hcounts : ∀ base t, eventsAt (before ++ decoded ds) base t ≤ u64Max) :
    Clean backend plan before ds := by
  induction ds generalizing before with
  | nil => trivial
  | cons d ds ih =>
    rw [decoded_cons, ← List.append_assoc] at hcounts
    refine ⟨?_, ih (fun d' hd' => hdecodes d' (List.mem_cons_of_mem _ hd')) hcounts⟩
    cases d with
    | tick time => rfl
    | record base value time position =>
      cases value with
      | error e => exact absurd rfl (hdecodes _ (by simp) base e time position)
      | ok v =>
        simp only [Delivery.failure]
        rw [if_neg]
        rintro ⟨-, hlt, -⟩
        have hle := hcounts base time
        have hone : eventsAt (Delivery.record base (.ok v) time position).record?.toList base time =
            Record.occurrences ⟨base, time, v⟩ := by
          simp [Delivery.record?, eventsAt]
        rw [eventsAt_append, eventsAt_append, hone] at hle
        omega

/-- A read that is served does not fail. -/
theorem Delivers.clean {backend : String} {stop : Nat} {recs before : List Record}
    {ds : List Delivery} {final : Option Position} (h : Delivers stored stop recs ds final)
    (hcounts : ∀ base t, eventsAt (before ++ recs) base t ≤ u64Max) :
    Clean backend plan before ds := by
  refine h.decodes.clean fun base t => ?_
  have hle := hcounts base t
  rw [← upTo_append_past stop recs, ← List.append_assoc, eventsAt_append] at hle
  rw [h.decoded]
  omega

/-- A traversal, from where it starts, publishes the ticks of its window. -/
theorem StartsAt.published {σ : Type} {start : Option Nat} {stop : Nat} {st : Tally σ}
    {origin : Option Position} {done rest : List Record} {t : Nat} {ds : List Delivery}
    {final : Option Position} (h : StartsAt w plan whole stored start stop st origin done rest t)
    (hsorted : Chronological whole) (hds : Delivers stored stop rest ds final) :
    (completedTicks st.pendingTime ds ++ (pendingTick st.pendingTime ds).toList).filter
        (fun τ => start.all fun start => decide (start ≤ τ)) =
      published (upTo stop whole) start := by
  have hordered : Ordered t ds := hds.ordered t h.after
  have hpending : st.pendingTime = none ∨ st.pendingTime = some t :=
    h.holding.pending.elim .inr fun hnone => .inl hnone.1
  have hupTo : Chronological (upTo stop whole) := hsorted.sublist (List.takeWhile_sublist _)
  refine List.Pairwise.eq_of_mem_iff
    ((completedTicks_increasing hordered hpending).1.sublist List.filter_sublist)
    (published_increasing hupTo start) fun τ => ?_
  rw [List.mem_filter, mem_completedTicks hds.decodes, mem_published, h.upTo_eq.1, hds.decoded]
  have hwindow : (start.all fun start => decide (start ≤ τ)) = true ↔ ∀ s, start = some s →
      s ≤ τ := by
    cases start <;> simp
  rw [hwindow]
  constructor
  · rintro ⟨hsome | ⟨r, hr, rfl⟩, hstart⟩
    · obtain ⟨r, hr, rfl⟩ := h.pending τ hsome
      exact ⟨⟨r, List.mem_append_left _ hr, rfl⟩, hstart⟩
    · exact ⟨⟨r, List.mem_append_right _ hr, rfl⟩, hstart⟩
  · rintro ⟨⟨r, hr, rfl⟩, hstart⟩
    refine ⟨?_, hstart⟩
    rcases List.mem_append.1 hr with hr | hr
    · exact .inl (h.window r hr hstart)
    · exact .inr ⟨r, hr, rfl⟩

end
end Ondas.Query
