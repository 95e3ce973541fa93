import Mathlib.Data.List.Perm.Subperm
import Ondas.Query.NativePoints

/-!
# Nothing cached is seen over a native reader

Every operation of a selection over a native reader seeks a state or has one traversal of its
window. The first gives the states of the records (`pointStates_served`), and the second is a
traversal over the reader that seeks in the stream (`window_served`), so each operation answers from
the records and leaves sound snapshots. The samples of an SHM snapshot that ends at the tick are one
more way to read a point (`replaySamples_served`), and a temporary selection of the histories that
SHM leaves has fewer histories than the one it serves, which bounds their nesting
(`fallback_exact`).
-/

namespace Ondas.Query

open Library
open Vcd (Position)

/-! ## The samples of a snapshot -/

section
variable {w : Waveform} {plan : Plan} {recs whole : List Record} {replay : Replay}
    {s : Signal} {t : Nat}

/-- The sample of a pending slot is the one its visitor would see. -/
theorem Replay.sample_pending {slot : Slot} (hpersistent : s.encoding ≠ .event)
    (htime : replay.time = some t) (hchanged : slot.changed = false) :
    replay.sample s slot = slot.compare.sample s (some t) := by
  obtain ⟨state, pending, changed, events⟩ := slot
  dsimp only at hchanged
  subst hchanged
  unfold Replay.sample Slot.sample Slot.compare
  rw [if_neg hpersistent, htime]
  cases pending with
  | none => cases state <;> simp
  | some value =>
    cases state with
    | none => rfl
    | some state =>
      by_cases hsame : state.value.sameValue value = true
      · simp [hsame]
      · simp [hsame]

/-- The sample of a slot at rest is its state. -/
theorem Replay.sample_rest {slot : Slot} (hpersistent : s.encoding ≠ .event)
    (hpending : slot.pending = none) (hchanged : slot.changed = false) :
    replay.sample s slot = slot.sample s none := by
  unfold Replay.sample Slot.sample
  rw [if_neg hpersistent, hpending, hchanged]
  cases slot.state <;> simp

/-- A snapshot that ends at a tick samples its handles as the records give them. -/
theorem Replay.Valid.sample (htyped : Typed w whole) (hsorted : Chronological whole)
    (hfits : plan.Fits w) (h : replay.Valid w plan whole (Ahead whole))
    (hposition : replay.position = ⟨replay.stop + 1, replay.stop, false⟩)
    {slot : Nat} (hslot : plan.retained[slot]? = some s) (hc : s.computed = false)
    (hpersistent : s.encoding ≠ .event) :
    replay.sample s (slotAt replay.slots slot) = w.sampleAt whole replay.stop s := by
  obtain ⟨done, rest, rfl, hsplits⟩ := h
  have hvalid := hfits.valid s (List.mem_of_getElem? hslot)
  have hrest := hsplits.stored.rest_ge
  rw [hposition] at hrest
  have hdone : Chronological done := hsorted.sublist (List.sublist_append_left _ _)
  have htypedDone : Typed w done := fun r hr => htyped r (List.mem_append_left _ hr)
  have hall : w.sampleAt (done ++ rest) replay.stop s = w.sampleAt done replay.stop s := by
    unfold Waveform.sampleAt
    rw [if_neg hpersistent, if_neg hpersistent, Waveform.committedAt_append hrest]
  rw [hall]
  rcases hsplits.time with ⟨htime, r, hr, hat⟩ | ⟨-, hlt⟩
  · have hopen : slotAt replay.slots slot = w.openSlot done replay.start s := by
      rw [hsplits.slots, slotAt_mapped hslot]
    -- Between the pending tick and the end nothing is recorded.
    have hsteady : w.committedAt done s replay.stop = w.committedAt done s replay.start := by
      rw [← Waveform.enteredAt_succ, ← Waveform.enteredAt_succ]
      exact Waveform.enteredAt_quiet (Nat.succ_le_succ (hat ▸ hsplits.done_le r hr)) fun r hr =>
        .inl (Nat.lt_succ_of_le (hsplits.before r hr))
    have hsample : w.sampleAt done replay.stop s = w.sampleAt done replay.start s := by
      unfold Waveform.sampleAt
      rw [if_neg hpersistent, if_neg hpersistent, hsteady]
    rw [hopen, Replay.sample_pending hpersistent htime rfl, hsample,
      ← sample_view hdone htypedDone hvalid]
    simp [Waveform.viewSlot, Waveform.openSlot, Waveform.fullSlot, hc]
  · have hle : ∀ r ∈ done, r.time < replay.stop + 1 := fun r hr =>
      Nat.lt_succ_of_le (hsplits.done_le r hr)
    have hopen : slotAt replay.slots slot = w.openSlot done (replay.stop + 1) s := by
      rw [hsplits.slots, ← openSlot_quiet hfits hlt hle, slotAt_mapped hslot]
    have hidle := openSlot_idle hvalid fun r hr => Nat.ne_of_lt (hle r hr)
    rw [hopen, Replay.sample_rest hpersistent hidle.1 rfl,
      openSlot_past hvalid hsplits.done_le]
    unfold Slot.sample Waveform.sampleAt
    rw [if_neg hpersistent, if_neg hpersistent]
    cases w.committedAt done s replay.stop with
    | none => rfl
    | some entry => simp [stateOf, Slot.empty]

end

section
variable {n : Native} {w : Waveform} {recs : List Record} {ns : NativeSelection} {t : Nat}

/-- **The samples of an SHM snapshot are those of the records.** -/
theorem replaySamples_served (hrecorded : Recorded w recs) (hkept : ns.Kept w recs)
    {samples : List Sample} (h : ns.replaySamples n t = some samples) :
    samples = ns.sel.sampleAt (selected ns.sel.plan.bases recs) t := by
  obtain ⟨hsorted, htyped, -⟩ := hrecorded.stream ns.sel.plan.bases
  have hplans := hkept.sound.plans
  rw [hkept.waveform] at hplans
  unfold NativeSelection.replaySamples at h
  split at h
  · next hcond =>
    simp only [Bool.and_eq_true, List.isEmpty_iff] at hcond
    obtain ⟨replay, hfilter, rfl⟩ := Option.map_eq_some_iff.1 h
    obtain ⟨hreplay, hstop⟩ := Option.filter_eq_some_iff.1 hfilter
    obtain rfl := of_decide_eq_true hstop
    have hvalid := hkept.sound.replay replay hreplay
    rw [hkept.waveform] at hvalid
    obtain ⟨hposition, hcacheable⟩ := hkept.ended.snapshot replay hreplay
    have hlength : ns.sel.plan.indices.length = ns.sel.signals.length := by
      simpa using congrArg List.length hplans.indices
    refine List.ext_getElem? fun i => ?_
    rw [Selection.sampleAt, List.getElem?_map, List.getElem?_map, List.zip, List.getElem?_zipWith]
    cases hs : ns.sel.signals[i]? with
    | none => rfl
    | some s =>
      obtain ⟨slot, hslot, hretained⟩ := hplans.slot hs
      have hmem := List.mem_of_getElem? hretained
      have hc := hplans.computes.source_of_nil hcond.1 s hmem
      have hpersistent : s.encoding ≠ .event := by
        intro hevent
        have hbase : s.base.encoding = .event := (hplans.valid s hmem).event.1 hevent
        unfold cacheable at hcacheable
        rw [Bool.not_eq_true', List.any_eq_false] at hcacheable
        exact hcacheable s.base (hplans.base_mem hmem hc) (decide_eq_true hbase)
      rw [hslot]
      simp only [Option.map_some]
      rw [hkept.waveform, hvalid.sample htyped hsorted hplans.toFits hposition hretained hc
        hpersistent]
  · cases h

/-! ## The snapshots an operation leaves -/

/-- The position at the end of a native read. -/
theorem Native.source_position {resumable origin : Option Position} {bases : List Signal}
    {stop : Nat} {σ B : Type} {callback : σ → Delivery → σ × ControlFlow B} {c : σ} {p : Position}
    (h : ((n.source resumable).read bases stop origin callback c).2.2 = some p) :
    p = ⟨stop + 1, stop, false⟩ ∧ cacheable bases = true := by
  simp only [Native.source] at h
  split at h
  · dsimp only at h
    split at h
    · next hcond =>
      cases h
      exact ⟨rfl, (Bool.and_eq_true _ _ ▸ hcond).1⟩
    · cases h
  · cases h

theorem Selection.cleared_ended (sel : Selection) : sel.cleared.Ended :=
  ⟨fun replay hreplay => (by cases hreplay)⟩

/-- A traversal of a native reader leaves the snapshot of its end. -/
theorem readTicksFrom_ended (n : Native) (sizes : Sizes) (resumable : Option Position)
    (sel : Selection) {σ B : Type} (start : Option Nat) (stop : Nat)
    (visitor : TickVisitor σ B) (c : σ) :
    (sel.readTicksFrom sizes (n.source resumable) start stop visitor c).1.Ended := by
  obtain ⟨sel', hseed⟩ : ∃ sel', sel.seed sizes (n.source resumable) start = sel' := ⟨_, rfl⟩
  have hnext :
      ∀ (position : Option Position) (pendingTime replayStart : Option Nat) (slots : List Slot)
      (checkpoint : Option Replay), (∀ p, position = some p → p = ⟨stop + 1, stop, false⟩ ∧
        cacheable sel'.plan.bases = true) →
      Selection.Ended { sel' with
        replay := position.map fun position =>
          { position := position, start := pendingTime.getD (replayStart.getD 0), stop := stop,
            time := pendingTime, slots := slots }
        checkpoint := checkpoint } := by
    refine fun position pendingTime replayStart slots checkpoint hposition =>
      ⟨fun replay hreplay => ?_⟩
    obtain ⟨p, hp, rfl⟩ := Option.map_eq_some_iff.1 hreplay
    obtain ⟨rfl, hcacheable⟩ := hposition p hp
    exact ⟨rfl, hcacheable⟩
  unfold Selection.readTicksFrom
  rw [hseed]
  dsimp only
  split
  · exact sel'.cleared_ended
  · exact sel'.cleared_ended
  · next st position hread =>
    have hposition : ∀ p, position = some p → p = ⟨stop + 1, stop, false⟩ ∧
        cacheable sel'.plan.bases = true := fun p hp => Native.source_position (by rw [hread, hp])
    split
    · exact hnext position _ ((sel'.resumed start stop).map Replay.start) st.work.1 _ hposition
    · split
      · exact hnext position _ ((sel'.resumed start stop).map Replay.start) st.work.1 _ hposition
      · exact sel'.cleared_ended

variable {sizes : Sizes} {resumable : Option Position} {sel : Selection} {σ B : Type}

/-- A scan leaves a selection that has ended a read, or none. -/
theorem scanEach_ended (h : sel.Ended) (range : TimeRange) (visitor : ScanVisitor σ B) (c : σ) :
    (sel.scanEach sizes (n.source resumable) range visitor c).1.Ended := by
  unfold Selection.scanEach
  dsimp only
  split
  · exact h
  · have hended := readTicksFrom_ended n sizes resumable sel (some range.start)
      (sel.waveform.scanEnd range) (scanTick sel.signals sel.plan.indices range.start visitor)
      (false, c)
    split
    · next hread => rwa [hread] at hended
    · next hread => rwa [hread] at hended
    · next hread =>
      rw [hread] at hended
      split
      · exact hended
      · split
        · exact hended
        · exact Selection.cleared_ended _

/-- So do rows. -/
theorem samplesAt_ended (h : sel.Ended) (times : List Nat) :
    (sel.samplesAt sizes (n.source resumable) times).1.Ended := by
  unfold Selection.samplesAt
  dsimp only
  split
  · exact h
  · split
    · next hread =>
      exact congrArg Prod.fst hread ▸ readTicksFrom_ended n sizes resumable sel none _ _ _
    · next hread =>
      exact congrArg Prod.fst hread ▸ readTicksFrom_ended n sizes resumable sel none _ _ _

/-- So does a query. -/
theorem query_ended (h : sel.Ended) (range : TimeRange) (drivers : List Nat)
    (visitor : QueryVisitor σ B) (c : σ) :
    (sel.query sizes (n.source resumable) range drivers visitor c).1.Ended := by
  unfold Selection.query
  split
  · exact h
  · dsimp only
    split
    · exact h
    · exact readTicksFrom_ended n sizes resumable sel ..

end

/-! ## The operations -/

section
variable {n : Native} {w : Waveform} {recs : List Record} {ns : NativeSelection}
    {fallback : Fallback}
  {sizes : Sizes} {σ B : Type}

variable (sizes) in
/-- The state that enters a window is sought without error, and what it leaves is sound. -/
theorem seed_served (hrecorded : Recorded w recs) (hserves : n.Serves w recs)
    (hkept : ns.Kept w recs)
    (hfallback : fallback.Exact w recs ns.sel.plan.bases.length) (seedPoint : Bool)
    (start : Option Nat) (stop : Nat) :
    ∃ ns', ns.seed fallback sizes n seedPoint start stop = (ns', .ok ()) ∧ ns'.Kept w recs ∧
      ns'.sel.cleared = ns.sel.cleared := by
  unfold NativeSelection.seed
  split
  · exact ⟨ns, rfl, hkept, rfl⟩
  · next entry _ =>
    split
    · obtain ⟨ns', answer, hread, hkept', hcleared, -⟩ :=
        pointStates_served hrecorded hserves hkept hfallback sizes (entry - 1) false
      rw [hread]
      exact ⟨ns', rfl, hkept', hcleared⟩
    · exact ⟨ns, rfl, hkept, rfl⟩

/-- Selections that are cleared alike have the same plan, waveform and handles. -/
theorem plan_of_cleared {sel sel' : Selection} (h : sel'.cleared = sel.cleared) :
    sel'.plan = sel.plan ∧ sel'.waveform = sel.waveform ∧ sel'.signals = sel.signals :=
  ⟨show sel'.cleared.plan = sel.cleared.plan by rw [h],
    show sel'.cleared.waveform = sel.cleared.waveform by rw [h],
    show sel'.cleared.signals = sel.cleared.signals by rw [h]⟩

/-- Dropping a large snapshot keeps the others sound. -/
theorem NativeSelection.Kept.trim (hkept : ns.Kept w recs) (handoff : Handoff) :
    NativeSelection.Kept w recs ⟨n.trim sizes ns.sel, handoff⟩ := by
  refine ⟨hkept.waveform, ⟨hkept.sound.plans, fun replay hreplay => ?_, hkept.sound.checkpoint⟩,
    ⟨fun replay hreplay => ?_⟩⟩
  · exact hkept.sound.replay replay (Option.filter_eq_some_iff.1 hreplay).1
  · exact hkept.ended.snapshot replay (Option.filter_eq_some_iff.1 hreplay).1

/-- What an operation with one traversal does over the reader that seeks in the stream. -/
structure Traverses {α : Type} (n : Native) (recs : List Record) (sel : Selection)
    (op : Source → Selection → Selection × α) (answer : α) : Prop where
  agrees : ∀ {src src' : Source} {sel' : Selection}, src.Agrees src' sel'.plan.bases →
    op src sel' = op src' sel'
  ended : ∀ {resumable : Option Position} {sel' : Selection}, sel'.Ended →
    (op (n.source resumable) sel').1.Ended
  served : ∀ {sel' : Selection}, sel'.cleared = sel.cleared →
    sel'.Sound (selected sel.plan.bases recs) (Ahead (selected sel.plan.bases recs)) →
    ∃ sel'', op (.seeking n.backend recs) sel' = (sel'', answer) ∧
      sel''.Sound (selected sel.plan.bases recs) (Ahead (selected sel.plan.bases recs)) ∧
      sel''.cleared = sel.cleared

variable (sizes) in
/-- **An operation answers from the records**, whatever snapshots it starts from and seeks. -/
theorem window_served (hrecorded : Recorded w recs) (hserves : n.Serves w recs)
    (hkept : ns.Kept w recs) (hfallback : fallback.Exact w recs ns.sel.plan.bases.length)
    (seedPoint : Bool) (start : Option Nat) (stop : Nat) {α : Type}
    {op : Source → Selection → Selection × α} {answer : α}
    (hop : Traverses n recs ns.sel op answer) :
    ∃ ns', ns.window fallback sizes n seedPoint start stop op = (ns', .ok answer) ∧
      ns'.Kept w recs ∧ ns'.sel.cleared = ns.sel.cleared := by
  obtain ⟨ns₁, hseed, hkept₁, hcleared₁⟩ :=
    seed_served sizes hrecorded hserves hkept hfallback seedPoint start stop
  obtain ⟨hplan, -, -⟩ := plan_of_cleared hcleared₁
  have hagrees : (n.source (n.resumable ns₁.sel start stop)).Agrees (.seeking n.backend recs)
      ns₁.sel.plan.bases := hserves.agrees fun p hp => hkept₁.resumable_known hp
  obtain ⟨sel', hread, hsound', hcleared'⟩ := hop.served hcleared₁ (by
    have hsound := hkept₁.sound
    rwa [hplan] at hsound)
  obtain ⟨hplan', hwaveform', -⟩ := plan_of_cleared hcleared'
  have hended : (op (n.source (n.resumable ns₁.sel start stop)) ns₁.sel).1.Ended :=
    hop.ended hkept₁.ended
  rw [hop.agrees hagrees, hread] at hended
  have hkept' : NativeSelection.Kept w recs ⟨sel', none⟩ := by
    refine ⟨hwaveform'.trans hkept.waveform, ?_, hended⟩
    show sel'.Sound (selected sel'.plan.bases recs) (Ahead (selected sel'.plan.bases recs))
    rw [hplan']
    exact hsound'
  unfold NativeSelection.window
  rw [hseed]
  dsimp only
  rw [hop.agrees hagrees, hread]
  exact ⟨_, rfl, hkept'.trim none, hcleared'⟩

/-- The reader that seeks in the records serves every selection of the waveform. -/
theorem Recorded.serves (h : Recorded w recs) {backend : String} {plan : Plan} :
    (Source.seeking backend recs).Serves w plan (selected plan.bases recs)
      (Ahead (selected plan.bases recs)) :=
  seeking_serves h.chronological h.typed h.span h.counts

/-- A source that seeks serves a selection whose plan is that of the records. -/
theorem Recorded.serves_cleared (h : Recorded w recs) (hkept : ns.Kept w recs) {backend : String}
    {sel : Selection} (hcleared : sel.cleared = ns.sel.cleared) :
    (Source.seeking backend recs).Serves sel.waveform sel.plan (selected ns.sel.plan.bases recs)
      (Ahead (selected ns.sel.plan.bases recs)) := by
  obtain ⟨hplan, hwaveform, -⟩ := plan_of_cleared hcleared
  rw [hwaveform, hkept.waveform, ← hplan]
  exact h.serves

variable (sizes) in
/-- A scan emits what the records do. -/
theorem scanEach_native (hrecorded : Recorded w recs) (hserves : n.Serves w recs)
    (hkept : ns.Kept w recs) (hfallback : fallback.Exact w recs ns.sel.plan.bases.length)
    (seedPoint : Bool) (range : TimeRange) {visitor : ScanVisitor σ B} {c c' : σ}
    {flow : ControlFlow B}
    (hvisit : visit visitor c (ns.sel.emissions (selected ns.sel.plan.bases recs) range) =
      (c', flow)) :
    ∃ ns', ns.scanEach fallback sizes n seedPoint range visitor c = (ns', c', .ok flow) ∧
      ns'.Kept w recs ∧ ns'.sel.cleared = ns.sel.cleared := by
  unfold NativeSelection.scanEach
  cases hidle : ns.sel.idleScan range with
  | true =>
    unfold Selection.emissions at hvisit
    rw [hidle, if_pos rfl, visit_nil] at hvisit
    cases hvisit
    exact ⟨ns, rfl, hkept, rfl⟩
  | false =>
    have hop : Traverses n recs ns.sel (fun src sel => sel.scanEach sizes src range visitor c)
        (c', .ok flow) := {
      agrees := fun h => h.scanEach range visitor c
      ended := fun h => scanEach_ended h range visitor c
      served := fun {sel'} hcleared hsound => by
        have hsame : sel'.emissions (selected ns.sel.plan.bases recs) range =
            ns.sel.emissions (selected ns.sel.plan.bases recs) range :=
          show sel'.cleared.emissions _ range = ns.sel.cleared.emissions _ range by rw [hcleared]
        obtain ⟨sel'', hscan, hsound'', hcleared'', -⟩ :=
          scanEach_served (hrecorded.serves_cleared hkept hcleared) hsound (hsame ▸ hvisit)
        exact ⟨sel'', hscan, hsound'', hcleared''.trans hcleared⟩ }
    obtain ⟨ns', hread, hkept', hcleared⟩ := window_served sizes hrecorded hserves hkept hfallback
      seedPoint (some range.start) (ns.sel.waveform.scanEnd range) hop
    rw [if_neg (by simp), hread]
    exact ⟨ns', rfl, hkept', hcleared⟩

variable (sizes) in
/-- Rows are those of the records. -/
theorem samplesAt_native (hrecorded : Recorded w recs) (hserves : n.Serves w recs)
    (hkept : ns.Kept w recs) (hfallback : fallback.Exact w recs ns.sel.plan.bases.length)
    (times : List Nat) :
    ∃ ns', ns.samplesAt fallback sizes n times = (ns', .ok (times.map fun t =>
        (t, ns.sel.sampleAt (selected ns.sel.plan.bases recs) t))) ∧
      ns'.Kept w recs ∧ ns'.sel.cleared = ns.sel.cleared := by
  unfold NativeSelection.samplesAt
  cases hidle : times.isEmpty || ns.sel.signals.isEmpty with
  | true =>
    refine ⟨ns, ?_, hkept, rfl⟩
    rw [if_pos rfl]
    rcases Bool.or_eq_true_iff.1 hidle with hnone | hnone
    · rw [List.isEmpty_iff.1 hnone]
      rfl
    · have hnil : ∀ t, ns.sel.sampleAt (selected ns.sel.plan.bases recs) t = [] := fun t => by
        rw [Selection.sampleAt, List.isEmpty_iff.1 hnone, List.map_nil]
      simp only [hnil]
  | false =>
    have hop : Traverses n recs ns.sel (fun src sel => sel.samplesAt sizes src times)
        (.ok (times.map fun t => (t, ns.sel.sampleAt (selected ns.sel.plan.bases recs) t))) := {
      agrees := fun h => h.samplesAt times
      ended := fun h => samplesAt_ended h times
      served := fun {sel'} hcleared hsound => by
        have hsame : sel'.sampleAt (selected ns.sel.plan.bases recs) =
            ns.sel.sampleAt (selected ns.sel.plan.bases recs) :=
          show sel'.cleared.sampleAt _ = ns.sel.cleared.sampleAt _ by rw [hcleared]
        obtain ⟨sel'', hrows, hsound'', hcleared''⟩ :=
          samplesAt_served (hrecorded.serves_cleared hkept hcleared) hsound
        rw [hsame] at hrows
        exact ⟨sel'', hrows, hsound'', hcleared''.trans hcleared⟩ }
    obtain ⟨ns', hread, hkept', hcleared⟩ := window_served sizes hrecorded hserves hkept hfallback
      true none (times.getD ((schedule times).getLastD 0) 0) hop
    rw [if_neg (by simp), hread]
    exact ⟨ns', rfl, hkept', hcleared⟩

variable (sizes) in
/-- A query is called with the contexts of the records. -/
theorem query_native (hrecorded : Recorded w recs) (hserves : n.Serves w recs)
    (hkept : ns.Kept w recs) (hfallback : fallback.Exact w recs ns.sel.plan.bases.length)
    (range : TimeRange) {drivers : List Nat} {visitor : QueryVisitor σ B} {c c' : σ}
    {outcome : Except Error (ControlFlow B)}
    (hdrivers : validateIndices ns.sel.signals.length drivers = .ok ())
    (hvisit : visitContexts visitor c
      (ns.sel.contexts (selected ns.sel.plan.bases recs) range drivers) =
      (c', outcome)) :
    ∃ ns', ns.query fallback sizes n range drivers visitor c = (ns', c', outcome) ∧
      ns'.Kept w recs ∧ ns'.sel.cleared = ns.sel.cleared := by
  unfold NativeSelection.query
  rw [hdrivers]
  dsimp only
  cases hidle : ns.sel.idleQuery range drivers with
  | true =>
    unfold Selection.contexts at hvisit
    rw [hidle, if_pos rfl] at hvisit
    cases hvisit
    exact ⟨ns, rfl, hkept, rfl⟩
  | false =>
    have hop : Traverses n recs ns.sel (fun src sel => sel.query sizes src range drivers visitor c)
        (c', outcome) := {
      agrees := fun h => h.query range drivers visitor c
      ended := fun h => query_ended h range drivers visitor c
      served := fun {sel'} hcleared hsound => by
        have hsame : sel'.contexts (selected ns.sel.plan.bases recs) range drivers =
            ns.sel.contexts (selected ns.sel.plan.bases recs) range drivers := by
          rw [← contexts_cleared, hcleared, contexts_cleared]
        obtain ⟨-, -, hsignals⟩ := plan_of_cleared hcleared
        obtain ⟨sel'', hquery, hsound'', hcleared'', -⟩ :=
          query_served (hrecorded.serves_cleared hkept hcleared) hsound
            (hsignals.symm ▸ hdrivers) (hsame ▸ hvisit)
        exact ⟨sel'', hquery, hsound'', hcleared''.trans hcleared⟩ }
    obtain ⟨ns', hread, hkept', hcleared⟩ := window_served sizes hrecorded hserves hkept hfallback
      true (if range.start = 0 then none else some (range.start - 1))
      (ns.sel.waveform.queryEnd range)
      hop
    rw [if_neg (by simp), hread]
    exact ⟨ns', rfl, hkept', hcleared⟩

/-- Samples that are handed over leave the snapshots, or none when the visitor stops. -/
theorem handSamples_kept (hkept : ns.Kept w recs) {visitor : σ → Sample → σ × ControlFlow B}
    {c c' : σ}
    {flow : ControlFlow B} {samples : List Sample} (hvisit : visit visitor c samples = (c', flow)) :
    ∃ ns', ns.handSamples visitor c samples = (ns', c', .ok flow) ∧ ns'.Kept w recs ∧
      ns'.sel.cleared = ns.sel.cleared := by
  unfold NativeSelection.handSamples
  rw [hvisit]
  cases flow with
  | «continue» => exact ⟨ns, rfl, hkept, rfl⟩
  | «break» b => exact ⟨_, rfl, hkept.cleared ns.handoff, rfl⟩

variable (sizes) in
/-- Visiting the samples of a point visits those of the records, however they are found. -/
theorem visitSamples_native (hrecorded : Recorded w recs) (hserves : n.Serves w recs)
    (hkept : ns.Kept w recs) (hfallback : fallback.Exact w recs ns.sel.plan.bases.length) (t : Nat)
    {visitor : σ → Sample → σ × ControlFlow B} {c c' : σ} {flow : ControlFlow B}
    (hvisit : visit visitor c (ns.sel.sampleAt (selected ns.sel.plan.bases recs) t) = (c', flow)) :
    ∃ ns', ns.visitSamples fallback sizes n t visitor c = (ns', c', .ok flow) ∧
      ns'.Kept w recs ∧ ns'.sel.cleared = ns.sel.cleared := by
  unfold NativeSelection.visitSamples
  cases hreplay : ns.replaySamples n t with
  | some samples =>
    obtain rfl := replaySamples_served hrecorded hkept hreplay
    exact handSamples_kept hkept hvisit
  | none =>
    obtain ⟨ns₁, answer, hread, hkept₁, hcleared₁, hstates⟩ :=
      pointStates_served hrecorded hserves hkept hfallback sizes t true
    obtain ⟨hplan, hwaveform, hsignals⟩ := plan_of_cleared hcleared₁
    rw [hread]
    cases answer with
    | some states =>
      obtain ⟨hpersistent, rfl⟩ := hstates states rfl
      have hsamples : (ns₁.sel.signals.zip (((ns.sel.signals.map fun s =>
          stateOf (w.committedAt (selected ns.sel.plan.bases recs) s t))).zip
          (List.replicate ns₁.sel.signals.length 0))).map
          (fun entry => pointSample entry.1 entry.2.1 entry.2.2) =
            ns.sel.sampleAt (selected ns.sel.plan.bases recs) t := by
        rw [hsignals]
        refine List.ext_getElem? fun i => ?_
        simp only [List.zip, List.getElem?_map, List.getElem?_zipWith, Selection.sampleAt,
          List.getElem?_replicate]
        cases hs : ns.sel.signals[i]? with
        | none => rfl
        | some s =>
          have hne := hpersistent s (List.mem_of_getElem? hs)
          rw [if_pos (List.getElem?_eq_some_iff.1 hs).1, hkept.waveform]
          simp only [Option.map_some, pointSample, if_neg hne, Waveform.sampleAt]
          cases w.committedAt (selected ns.sel.plan.bases recs) s t <;> rfl
      dsimp only
      rw [hsamples]
      obtain ⟨ns', hhand, hkept', hcleared'⟩ := handSamples_kept hkept₁ hvisit
      exact ⟨ns', hhand, hkept', hcleared'.trans hcleared₁⟩
    | none =>
      have hscan := visit_continue (B := Unit) collectPoint
        (List.replicate ns₁.sel.signals.length none, List.replicate ns₁.sel.signals.length 0)
        (ns₁.sel.emissions (selected ns₁.sel.plan.bases recs) (.point t))
      obtain ⟨ns₂, hread₂, hkept₂, hcleared₂⟩ := scanEach_native sizes hrecorded hserves
        hkept₁ (hplan ▸ hfallback) (decide (n.kind ≠ .shm)) (.point t) hscan
      obtain ⟨-, -, hsignals₂⟩ := plan_of_cleared hcleared₂
      have hserves₁ : (Source.seeking n.backend recs).Serves ns₁.sel.waveform ns₁.sel.plan
          (selected ns₁.sel.plan.bases recs) (Ahead (selected ns₁.sel.plan.bases recs)) :=
        hrecorded.serves_cleared hkept₁ rfl
      have hsamples := collected_samples hserves₁.toCarries hkept₁.sound t
      dsimp only at hsamples ⊢
      rw [hread₂]
      dsimp only
      rw [hsignals₂, hsamples]
      have hsame : ns₁.sel.sampleAt (selected ns₁.sel.plan.bases recs) t =
          ns.sel.sampleAt (selected ns.sel.plan.bases recs) t := by
        rw [hplan]
        exact show ns₁.sel.cleared.sampleAt _ t = ns.sel.cleared.sampleAt _ t by rw [hcleared₁]
      rw [hsame]
      obtain ⟨ns', hhand, hkept', hcleared'⟩ := handSamples_kept hkept₂ hvisit
      exact ⟨ns', hhand, hkept', (hcleared'.trans hcleared₂).trans hcleared₁⟩

variable (sizes) in
/-- The samples of a point are those of the records. -/
theorem samples_native (hrecorded : Recorded w recs) (hserves : n.Serves w recs)
    (hkept : ns.Kept w recs) (hfallback : fallback.Exact w recs ns.sel.plan.bases.length)
    (t : Nat) :
    (ns.samples fallback sizes n t).2 =
      .ok (ns.sel.sampleAt (selected ns.sel.plan.bases recs) t) := by
  unfold NativeSelection.samples
  obtain ⟨ns', hread, -⟩ := visitSamples_native sizes hrecorded hserves hkept hfallback t
    (visit_push (B := Unit) [] (ns.sel.sampleAt (selected ns.sel.plan.bases recs) t))
  rw [hread]
  rfl

end

/-! ## The histories that SHM leaves -/

section
variable {n : Native} {w : Waveform} {recs : List Record} {signals : List Signal}

/-- A selection of source handles reads no more histories than it has handles. -/
theorem Plan.new_bases_le {plan : Plan} (h : Plan.new w signals = .ok plan)
    (hsource : ∀ s ∈ signals, s.computed = false) : plan.bases.length ≤ signals.length := by
  have hfits := (Plan.new_plans h).toFits
  unfold Plan.new at h
  split at h
  · cases h
  next p hp =>
  cases h
  have htidy : Planning.Tidy w (· ∈ signals) p := (planAll_ends signals).tidy
    (fun s t hs hc _ => by rw [hsource s hs] at hc; cases hc) Planning.empty_tidy
    (fun _ hs => hs) hp
  have hsubset : p.plan.bases.map Signal.index ⊆ signals.map Signal.index := by
    intro index hindex
    obtain ⟨base, hbase, rfl⟩ := List.mem_map.1 hindex
    obtain ⟨s, hs, -, rfl⟩ := hfits.sources base hbase
    exact List.mem_map.2 ⟨s, htidy.reached s hs, rfl⟩
  simpa using (htidy.bases.subperm hsubset).length_le

/-- Bit handles can be selected. -/
theorem Selection.new_seekable {bases : List Signal} (h : ∀ s ∈ signals, Seekable w bases s) :
    ∃ sel, Selection.new w signals = .ok sel := by
  unfold Selection.new
  cases hplan : Plan.new w signals with
  | ok plan => exact ⟨_, rfl⟩
  | error e =>
    obtain ⟨s, hs, hadmit⟩ := Plan.new_error hplan
    have hok : w.admit s = .ok () := Waveform.admit_ok.2 ⟨(h s hs).valid, fun hunsupported => by
      have hbits := (h s hs).bits
      simp [Signal.width, hunsupported] at hbits⟩
    rw [hok] at hadmit
    cases hadmit

/-- A fresh selection has no snapshots. -/
theorem NativeSelection.new_kept {sel : Selection} (h : Selection.new w signals = .ok sel)
    (recs : List Record) (handoff : Handoff) : NativeSelection.Kept w recs ⟨sel, handoff⟩ := by
  obtain ⟨hsound, hwaveform, -⟩ := Selection.new_sound h (selected sel.plan.bases recs)
    (Ahead (selected sel.plan.bases recs))
  refine ⟨hwaveform, hsound, ⟨fun replay hreplay => ?_⟩⟩
  unfold Selection.new at h
  split at h
  · cases h
  · cases h
    cases hreplay

/-- **The histories that SHM leaves are sampled as the records give them**, by selections of fewer
and fewer of them. -/
theorem fallback_exact (hrecorded : Recorded w recs) (hserves : n.Serves w recs) (sizes : Sizes)
    (depth : Nat) : (n.fallback sizes depth).Exact w recs (depth + 1) := by
  induction depth with
  | zero =>
    intro missing t handoff hne hlt
    exact absurd (List.length_eq_zero_iff.1 (Nat.lt_one_iff.1 hlt)) hne
  | succ depth ih =>
    intro missing t handoff _ hlt hmissing
    have hseek : ∀ s ∈ missing, Seekable w missing s := fun s hs => (hmissing s hs).1
    obtain ⟨sel, hsel⟩ := Selection.new_seekable hseek
    have hkept := NativeSelection.new_kept hsel recs handoff
    have hsignals : sel.signals = missing := (Selection.new_sound hsel [] fun _ _ => False).2.2
    have hplans := hkept.sound.plans
    rw [hkept.waveform, hsignals] at hplans
    have hbases : sel.plan.bases.length ≤ missing.length := by
      unfold Selection.new at hsel
      split at hsel
      · cases hsel
      next plan hplan =>
      cases hsel
      exact Plan.new_bases_le hplan fun s hs => (hseek s hs).source
    have hfallback : (n.fallback sizes depth).Exact w recs sel.plan.bases.length :=
      fun missing t handoff hne hless hall => ih missing t handoff hne (by omega) hall
    have hsamples := samples_native sizes hrecorded hserves hkept hfallback t
    unfold Native.fallback
    rw [hsel]
    dsimp only
    rw [hsamples, Selection.sampleAt, hsignals, hkept.waveform]
    congr 1
    refine List.map_congr_left fun s hs => ?_
    have hread : Seekable w sel.plan.bases s := ⟨(hseek s hs).valid, (hseek s hs).source,
      (hseek s hs).bits, hplans.base_mem (hplans.mem_retained hs) (hseek s hs).source⟩
    exact hread.sampleAt_selected hrecorded.chronological

end

/-! ## Any operations -/

/-- The selections that operations over a native reader leave. Other selections of the reader leave
what it has prepared in any state, and a visitor that unwinds leaves no snapshots. -/
inductive NativeSelection.Reached (sizes : Sizes) (n : Native) (depth : Nat) (w : Waveform)
    (signals : List Signal) : NativeSelection → Prop
  | new {sel : Selection} (handoff : Handoff) : Selection.new w signals = .ok sel →
      Reached sizes n depth w signals ⟨sel, handoff⟩
  | scanned {ns : NativeSelection} {σ B : Type} (range : TimeRange) (visitor : ScanVisitor σ B)
      (c : σ) : Reached sizes n depth w signals ns →
      Reached sizes n depth w signals
        (ns.scanEach (n.fallback sizes depth) sizes n true range visitor c).1
  | sampled {ns : NativeSelection} {σ B : Type} (time : Nat)
      (visitor : σ → Sample → σ × ControlFlow B)
      (c : σ) : Reached sizes n depth w signals ns →
      Reached sizes n depth w signals
        (ns.visitSamples (n.fallback sizes depth) sizes n time visitor c).1
  | rows {ns : NativeSelection} (times : List Nat) : Reached sizes n depth w signals ns →
      Reached sizes n depth w signals (ns.samplesAt (n.fallback sizes depth) sizes n times).1
  | queried {ns : NativeSelection} {σ B : Type} (range : TimeRange) (drivers : List Nat)
      (visitor : QueryVisitor σ B) (c : σ) : Reached sizes n depth w signals ns →
      Reached sizes n depth w signals
        (ns.query (n.fallback sizes depth) sizes n range drivers visitor c).1
  | shared {ns : NativeSelection} (handoff : Handoff) : Reached sizes n depth w signals ns →
      Reached sizes n depth w signals { ns with handoff := handoff }
  | cleared {ns : NativeSelection} : Reached sizes n depth w signals ns →
      Reached sizes n depth w signals { ns with sel := ns.sel.cleared }

section
variable {sizes : Sizes} {n : Native} {depth : Nat} {w : Waveform} {recs : List Record}
  {signals : List Signal} {ns : NativeSelection}

/-- The snapshots of a reached selection are sound. -/
theorem NativeSelection.Reached.kept (hrecorded : Recorded w recs) (hserves : n.Serves w recs)
    {plan : Plan} (hplan : Plan.new w signals = .ok plan) (hdepth : plan.bases.length ≤ depth + 1)
    (h : ns.Reached sizes n depth w signals) :
    ns.Kept w recs ∧ ns.sel.cleared = ⟨w, signals, plan, none, none⟩ := by
  have hfallback : ∀ {ns : NativeSelection}, ns.sel.cleared = ⟨w, signals, plan, none, none⟩ →
      (n.fallback sizes depth).Exact w recs ns.sel.plan.bases.length := by
    intro ns hcleared missing t handoff hne hlt hall
    have hsame : ns.sel.plan = plan := congrArg Selection.plan hcleared
    rw [hsame] at hlt
    exact fallback_exact hrecorded hserves sizes depth missing t handoff hne (by omega) hall
  induction h with
  | new handoff hsel =>
    refine ⟨NativeSelection.new_kept hsel recs handoff, ?_⟩
    unfold Selection.new at hsel
    rw [hplan] at hsel
    cases hsel
    rfl
  | scanned range visitor c _ ih =>
    obtain ⟨hkept, hcleared⟩ := ih
    obtain ⟨ns', hread, hkept', hcleared'⟩ := scanEach_native sizes hrecorded hserves hkept
      (hfallback hcleared) true range (Prod.mk.eta (p := visit visitor c _)).symm
    rw [hread]
    exact ⟨hkept', hcleared'.trans hcleared⟩
  | sampled time visitor c _ ih =>
    obtain ⟨hkept, hcleared⟩ := ih
    obtain ⟨ns', hread, hkept', hcleared'⟩ := visitSamples_native sizes hrecorded hserves hkept
      (hfallback hcleared) time (Prod.mk.eta (p := visit visitor c _)).symm
    rw [hread]
    exact ⟨hkept', hcleared'.trans hcleared⟩
  | rows times _ ih =>
    obtain ⟨hkept, hcleared⟩ := ih
    obtain ⟨ns', hread, hkept', hcleared'⟩ := samplesAt_native sizes hrecorded hserves hkept
      (hfallback hcleared) times
    rw [hread]
    exact ⟨hkept', hcleared'.trans hcleared⟩
  | @queried ns σ B range drivers visitor c _ ih =>
    obtain ⟨hkept, hcleared⟩ := ih
    cases hdrivers : validateIndices ns.sel.signals.length drivers with
    | error e =>
      unfold NativeSelection.query
      rw [hdrivers]
      exact ⟨hkept, hcleared⟩
    | ok =>
      obtain ⟨ns', hread, hkept', hcleared'⟩ := query_native sizes hrecorded hserves hkept
        (hfallback hcleared) range hdrivers (Prod.mk.eta (p := visitContexts visitor c _)).symm
      rw [hread]
      exact ⟨hkept', hcleared'.trans hcleared⟩
  | shared handoff _ ih => exact ⟨⟨ih.1.waveform, ih.1.sound, ih.1.ended⟩, ih.2⟩
  | cleared _ ih => exact ⟨ih.1.cleared _, ih.2⟩

end

/-- A selection over a native reader answers every operation as one over a plain reader does. -/
structure NativeAlike (fallback : Fallback) (sizes : Sizes) (n : Native) (ns : NativeSelection)
    (src : Source) (sel : Selection) : Prop where
  scans : ∀ {σ B : Type} (range : TimeRange) (visitor : ScanVisitor σ B) (c : σ),
    (ns.scanEach fallback sizes n true range visitor c).2 =
    (sel.scanEach sizes src range visitor c).2
  points : ∀ {σ B : Type} (time : Nat) (visitor : σ → Sample → σ × ControlFlow B) (c : σ),
    (ns.visitSamples fallback sizes n time visitor c).2 =
      (sel.visitSamples sizes src time visitor c).2
  rows : ∀ times : List Nat,
    (ns.samplesAt fallback sizes n times).2 = (sel.samplesAt sizes src times).2
  traces : ∀ range : TimeRange,
    (ns.traces fallback sizes n range).2 = (sel.traces sizes src range).2
  queries : ∀ {σ B : Type} (range : TimeRange) (drivers : List Nat) (visitor : QueryVisitor σ B)
    (c : σ), (ns.query fallback sizes n range drivers visitor c).2 =
      (sel.query sizes src range drivers visitor c).2

/-- **Nothing sought or cached is seen over a native reader.** A selection over a native reader,
left by any operations, answers every operation as a fresh selection of the same handles over the
plain records does. -/
theorem native_alike {sizes : Sizes} {n : Native} {depth : Nat} {w : Waveform} {recs : List Record}
    {signals : List Signal} {ns : NativeSelection} {plan : Plan} (hrecorded : Recorded w recs)
    (hserves : n.Serves w recs) (hplan : Plan.new w signals = .ok plan)
    (hdepth : plan.bases.length ≤ depth + 1) (h : ns.Reached sizes n depth w signals)
    (failure : Error) :
    NativeAlike (n.fallback sizes depth) sizes n ns (.memory recs none failure)
      ⟨w, signals, plan, none, none⟩ := by
  obtain ⟨hkept, hcleared⟩ := h.kept hrecorded hserves hplan hdepth
  obtain ⟨hsame, -, hsignals⟩ := @plan_of_cleared ⟨w, signals, plan, none, none⟩ ns.sel hcleared
  dsimp only at hsame hsignals
  have hfallback : (n.fallback sizes depth).Exact w recs ns.sel.plan.bases.length := by
    intro missing t handoff hne hlt hall
    rw [hsame] at hlt
    exact fallback_exact hrecorded hserves sizes depth missing t handoff hne (by omega) hall
  have hplain : (Source.memory recs none failure).Serves w plan (selected plan.bases recs)
      fun _ _ => False :=
    ⟨memory_reads hrecorded.chronological hrecorded.typed hrecorded.span,
      counted_selected hrecorded.counts _⟩
  have hsound : (⟨w, signals, plan, none, none⟩ : Selection).Sound (selected plan.bases recs)
      fun _ _ => False := ⟨Plan.new_plans hplan, fun replay hreplay => (by cases hreplay),
      fun replay hreplay => (by cases hreplay)⟩
  have hscans : ∀ {σ B : Type} (range : TimeRange) (visitor : ScanVisitor σ B) (c : σ),
      (ns.scanEach (n.fallback sizes depth) sizes n true range visitor c).2 =
        ((⟨w, signals, plan, none, none⟩ : Selection).scanEach sizes
        (.memory recs none failure) range
          visitor c).2 := by
    intro σ B range visitor c
    obtain ⟨ns', hread, -⟩ := scanEach_native sizes hrecorded hserves hkept hfallback true range
      (Prod.mk.eta (p := visit visitor c _)).symm
    have hemissions : ns.sel.emissions (selected ns.sel.plan.bases recs) range =
        (⟨w, signals, plan, none, none⟩ : Selection).emissions
        (selected plan.bases recs) range := by
      rw [hsame, ← hcleared]
      rfl
    rw [hread, scanEach_answer hplain hsound, hemissions]
  refine ⟨hscans, fun time visitor c => ?_, fun times => ?_, fun range => ?_,
    fun range drivers visitor c => ?_⟩
  · obtain ⟨ns', hread, -⟩ := visitSamples_native sizes hrecorded hserves hkept hfallback time
      (Prod.mk.eta (p := visit visitor c _)).symm
    have hsamples : ns.sel.sampleAt (selected ns.sel.plan.bases recs) time =
        (⟨w, signals, plan, none, none⟩ : Selection).sampleAt (selected plan.bases recs) time := by
      rw [hsame, ← hcleared]
      rfl
    rw [hread, visitSamples_answer hplain hsound, hsamples]
  · obtain ⟨ns', hread, -⟩ := samplesAt_native sizes hrecorded hserves hkept hfallback times
    have hsamples : ns.sel.sampleAt (selected ns.sel.plan.bases recs) =
        (⟨w, signals, plan, none, none⟩ : Selection).sampleAt (selected plan.bases recs) := by
      rw [hsame, ← hcleared]
      rfl
    rw [hread, samplesAt_answer hplain hsound, hsamples]
  · have hscan := hscans (B := Unit) range
      (fun traces record => (collectTrace traces record, .continue))
      (signals.map fun signal => ⟨signal, range, none, []⟩)
    unfold NativeSelection.traces Selection.traces
    rw [hsignals]
    rcases hnative : ns.scanEach (n.fallback sizes depth) sizes n true range _ _ with ⟨ns', answer⟩
    rw [hnative] at hscan
    rcases hfresh : Selection.scanEach sizes _ _ range _ _ with ⟨sel', answer'⟩
    rw [hfresh] at hscan
    dsimp only at hscan
    subst hscan
    rcases answer with ⟨traces, e | flow⟩ <;> rfl
  · have hcontexts : ns.sel.contexts (selected ns.sel.plan.bases recs) range drivers =
        (⟨w, signals, plan, none, none⟩ : Selection).contexts (selected plan.bases recs) range
          drivers := by
      rw [hsame, ← hcleared, contexts_cleared]
    rw [query_answer hplain hsound]
    dsimp only
    cases hdrivers : validateIndices signals.length drivers with
    | error e =>
      unfold NativeSelection.query
      rw [hsignals, hdrivers]
    | ok =>
      obtain ⟨ns', hread, -⟩ := query_native sizes hrecorded hserves hkept hfallback range
        (hsignals.symm ▸ hdrivers) (Prod.mk.eta (p := visitContexts visitor c _)).symm
      rw [hread, ← hcontexts]

/-! ## Two recorded bits -/

/-- A native reader of records in memory. Its points of SHM certify the first history only. -/
def Native.stored (kind : NativeKind) (w : Waveform) (recs : List Record) : Native where
  kind := kind
  backend := "stored"
  sampleBits := fun _ projections time => .ok (projections.map (w.sampleAt recs time))
  shmPoints := fun bases time _ => .ok (some (match bases with
    | [] => []
    | base :: rest => some (w.sampleAt recs time base) :: rest.map fun _ => none))
  read := fun _ bases start stop visitor c =>
    let r := visit visitor c ((between start stop (selected bases recs)).map
      fun r => (r.base, r.time, .ok r.value))
    (r.1, .ok r.2)

/-- The records in memory are served. -/
theorem Native.stored_serves (kind : NativeKind) (w : Waveform) (recs : List Record) :
    (Native.stored kind w recs).Serves w recs where
  hands := fun _ _ _ _ _ _ _ _ _ => rfl
  sampleBits := fun _ _ _ _ => rfl
  shmPoints := fun bases t _ _ => by
    refine ⟨_, rfl, fun samples h => ?_⟩
    cases h
    cases bases with
    | nil => exact ⟨.nil, fun h => absurd rfl h⟩
    | cons base rest =>
      refine ⟨.cons (fun s hs => (Option.some.inj hs).symm) ?_,
        fun _ => ⟨_, List.mem_cons_self, rfl⟩⟩
      rw [List.forall₂_map_right_iff]
      exact List.forall₂_same.2 fun base _ s hs => by cases hs

/-- Two bits in SHM, after a point that leaves the second one and a scan that resumes from it. -/
theorem native_alike_bits :
    let first : Signal := ⟨7, 0, false, .bits 1, .bits 1, 0⟩
    let second : Signal := ⟨7, 1, false, .bits 1, .bits 1, 0⟩
    let w : Waveform := ⟨7, [.bits 1, .bits 1], [], some ⟨2, 9⟩, fun i d h => by cases h⟩
    let recs : List Record := [⟨0, 2, .bits (ascii "0")⟩, ⟨1, 2, .bits (ascii "1")⟩,
      ⟨0, 5, .bits (ascii "1")⟩, ⟨1, 9, .bits (ascii "0")⟩]
    let n := Native.stored .shm w recs
    let fallback := n.fallback ⟨0, 0⟩ 1
    let collect (seen : List Sample) (sample : Sample) : List Sample × ControlFlow Unit :=
      (seen ++ [sample], .continue)
    let gather (seen : List (Nat × ScanRef)) (record : Nat × ScanRef) :
        List (Nat × ScanRef) × ControlFlow Unit := (seen ++ [record], .continue)
    ∃ plan, Plan.new w [first, second] = .ok plan ∧
      NativeAlike fallback ⟨0, 0⟩ n
        (((⟨⟨w, [first, second], plan, none, none⟩, none⟩ : NativeSelection).visitSamples
        fallback ⟨0, 0⟩
          n 5 collect []).1.scanEach fallback ⟨0, 0⟩ n true ⟨6, some 9⟩ gather []).1
        (.memory recs none (.io "failure")) ⟨w, [first, second], plan, none, none⟩ := by
  intro first second w recs n fallback collect gather
  have hok : (Plan.new w [first, second]).toBool = true := by decide +kernel
  have hrecorded : Recorded w recs := by
    have htyped : Typed w recs := by
      intro r hr
      simp only [recs, List.mem_cons, List.not_mem_nil, or_false] at hr
      rcases hr with rfl | rfl | rfl | rfl
      all_goals exact ⟨_, rfl, trivial⟩
    have hsized : Sized w recs := by
      intro r hr digits hdigits
      simp only [recs, List.mem_cons, List.not_mem_nil, or_false] at hr
      rcases hr with rfl | rfl | rfl | rfl
      all_goals
        cases hdigits
        rfl
    have hsorted : Chronological recs := by unfold Chronological; decide +kernel
    have hspan : ∀ r ∈ recs, r.time ≤
        (w.timeSpan.map TimeSpan.last).getD u64Max := by decide +kernel
    exact ⟨hsorted, htyped, hsized, hspan,
      fun base t => Nat.le_trans (eventsAt_le base t) (by decide +kernel), fun d hd => by cases hd⟩
  cases hplan : Plan.new w [first, second] with
  | error e => rw [hplan] at hok; cases hok
  | ok plan =>
    have hcount : ((Plan.new w [first, second]).toOption.map fun plan => plan.bases.length) =
        some 2 := by decide +kernel
    rw [hplan] at hcount
    have hbases : plan.bases.length = 2 := Option.some.inj hcount
    have hnew : Selection.new w [first, second] = .ok ⟨w, [first, second], plan, none, none⟩ := by
      unfold Selection.new
      rw [hplan]
    exact ⟨plan, rfl, native_alike hrecorded (Native.stored_serves .shm w recs) hplan hbases.le
      (.scanned ⟨6, some 9⟩ gather [] (.sampled 5 collect [] (.new none hnew))) (.io "failure")⟩

end Ondas.Query
