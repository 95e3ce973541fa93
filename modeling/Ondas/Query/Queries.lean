import Ondas.Query.Batch

/-!
# Queries

A query calls its visitor at the candidate ticks of its drivers, with a context that can read the
tick and the one before it. `Selection.contexts` lists those contexts as a function of the stream;
`query_served` says that a query hands them to its visitor, and `contexts_sample` that a context
reads the samples of both ticks.
-/

namespace Ondas.Query

open Library
open Vcd (Position)

/-- Call a query visitor with contexts until it stops or fails. -/
def visitContexts {σ B : Type} (visitor : QueryVisitor σ B) :
    σ → List QueryContext → σ × Except Error (ControlFlow B)
  | c, [] => (c, .ok .continue)
  | c, ctx :: rest =>
    match visitor c ctx with
    | (c, .ok .continue) => visitContexts visitor c rest
    | (c, outcome) => (c, outcome)

namespace Selection
variable (sel : Selection) (whole : List Record)

/-- The slots a query sees at a tick. -/
def slotsAt (t : Nat) : List Slot := sel.plan.retained.map (sel.waveform.viewSlot whole t)

/-- A driver has a candidate at a tick. -/
def candidate (drivers : List Nat) (t : Nat) : Bool :=
  drivers.any fun index => (slotAt (sel.slotsAt whole t) (sel.plan.indices.getD index 0)).busy

/-- The contexts of the candidates among some ticks, after a tick with its events. -/
def contextsFrom (drivers : List Nat) (start : Nat) :
    Option Nat → List Nat → List Nat → List QueryContext
  | _, _, [] => []
  | previousTick, previousEvents, t :: ticks =>
    (if start ≤ t ∧ sel.candidate whole drivers t = true then
      [⟨t, sel.signals, sel.slotsAt whole t, sel.plan.indices, previousTick, previousEvents⟩]
    else []) ++
    contextsFrom drivers start (some t) ((sel.slotsAt whole t).map Slot.events) ticks

/-- The ticks a query traverses: it also needs the tick before its range. -/
def queryTicks (range : TimeRange) : List Nat :=
  published (upTo (sel.waveform.queryEnd range) whole)
    (if range.start = 0 then none else some (range.start - 1))

/-- A query visits nothing. -/
def idleQuery (range : TimeRange) (drivers : List Nat) : Bool :=
  drivers.isEmpty || range.isEmpty || decide (sel.waveform.queryEnd range < range.start)

/-- The contexts of a query. -/
def contexts (range : TimeRange) (drivers : List Nat) : List QueryContext :=
  if sel.idleQuery range drivers then []
  else sel.contextsFrom whole drivers range.start none (List.replicate sel.plan.retained.length 0)
    (sel.queryTicks whole range)

end Selection

section
variable {σ B : Type} {whole : List Record} {stored : Position → List Record → Prop}
  {sizes : Sizes} {src : Source} {sel : Selection}

/-- The traversal of a query calls its visitor with the contexts. -/
theorem sweep_queryTick {visitor : QueryVisitor σ B} {drivers : List Nat} {start : Nat}
    (c : σ) (previousTick : Option Nat) (previousEvents ticks : List Nat) :
    ∃ st, sweep (queryTick sel.signals sel.plan.indices drivers start visitor)
        ⟨c, previousTick, previousEvents⟩ (views sel.waveform sel.plan whole ticks) =
      (st, (visitContexts visitor c
        (sel.contextsFrom whole drivers start previousTick previousEvents ticks)).2) ∧
      st.visited = (visitContexts visitor c
        (sel.contextsFrom whole drivers start previousTick previousEvents ticks)).1 := by
  induction ticks generalizing c previousTick previousEvents with
  | nil => exact ⟨_, rfl, rfl⟩
  | cons t ticks ih =>
    have hcons : views sel.waveform sel.plan whole (t :: ticks) =
        (t, sel.slotsAt whole t) :: views sel.waveform sel.plan whole ticks := rfl
    rw [hcons]
    simp only [sweep, queryTick, Selection.contextsFrom]
    by_cases hcandidate : start ≤ t ∧ sel.candidate whole drivers t = true
    · have hcond : (decide (start ≤ t) && drivers.any fun index =>
          (slotAt (sel.slotsAt whole t) (sel.plan.indices.getD index 0)).busy) = true := by
        simpa [Selection.candidate] using hcandidate
      rw [if_pos hcond, if_pos hcandidate, List.singleton_append]
      simp only [visitContexts]
      rcases visitor c
        ⟨t, sel.signals, sel.slotsAt whole t, sel.plan.indices, previousTick, previousEvents⟩ with
        ⟨d, e | _ | b⟩
      · exact ⟨_, rfl, rfl⟩
      · exact ih d (some t) _
      · exact ⟨_, rfl, rfl⟩
    · have hcond : ¬ (decide (start ≤ t) && drivers.any fun index =>
          (slotAt (sel.slotsAt whole t) (sel.plan.indices.getD index 0)).busy) = true := by
        simpa [Selection.candidate] using hcandidate
      rw [if_neg hcond, if_neg hcandidate, List.nil_append]
      exact ih c (some t) _

/-- A query of a stream hands its visitor the contexts of its candidates, until it stops, or its
read fails. -/
theorem query_read {visitor : QueryVisitor σ B} {c c' : σ}
    {outcome : Except Error (ControlFlow B)} {range : TimeRange} {drivers : List Nat}
    (htries : src.Tries sel.waveform sel.plan whole stored) (hsound : sel.Sound whole stored)
    (hdrivers : validateIndices sel.signals.length drivers = .ok ())
    (hvisit : visitContexts visitor c (sel.contexts whole range drivers) = (c', outcome)) :
    (∃ sel', sel.query sizes src range drivers visitor c = (sel', c', outcome) ∧
      sel'.Sound whole stored ∧ sel'.cleared = sel.cleared ∧
      (outcome ≠ .ok .continue → sel' = sel.cleared)) ∨
    (src.Reads sel.waveform sel.plan whole stored → ¬ Counted whole) ∧
      ∃ c'' outcome', sel.query sizes src range drivers visitor c =
        (sel.cleared, c'', outcome') ∧ outcome' ≠ .ok .continue := by
  unfold Selection.contexts at hvisit
  unfold Selection.query
  rw [hdrivers]
  dsimp only
  by_cases hidle : sel.idleQuery range drivers = true
  · rw [if_pos hidle] at hvisit
    cases hvisit
    unfold Selection.idleQuery at hidle
    rw [if_pos hidle]
    exact .inl ⟨sel, rfl, hsound, rfl, fun h => absurd rfl h⟩
  · rw [if_neg hidle] at hvisit
    unfold Selection.idleQuery at hidle
    rw [if_neg hidle]
    obtain ⟨st, hsweep, hvisited⟩ := sweep_queryTick
       c none
      (List.replicate sel.plan.retained.length 0) (sel.queryTicks whole range)
    rw [hvisit] at hsweep hvisited
    obtain ⟨sel', slots, hread, hsound', hcleared, -, hstop⟩ |
        ⟨hcounted, slots, d, outcome', hread, hne, -⟩ := readTicksFrom_read
      htries hsound hsweep
    · rw [hread]
      exact .inl ⟨sel', congrArg (fun d => (sel', d, outcome)) hvisited, hsound', hcleared, hstop⟩
    · rw [hread]
      exact .inr ⟨hcounted, d.visited, outcome', rfl, hne⟩

/-- A query of a served stream hands its visitor the contexts of its candidates, until it stops. -/
theorem query_served {visitor : QueryVisitor σ B} {c c' : σ}
    {outcome : Except Error (ControlFlow B)} {range : TimeRange} {drivers : List Nat}
    (hserves : src.Serves sel.waveform sel.plan whole stored) (hsound : sel.Sound whole stored)
    (hdrivers : validateIndices sel.signals.length drivers = .ok ())
    (hvisit : visitContexts visitor c (sel.contexts whole range drivers) = (c', outcome)) :
    ∃ sel', sel.query sizes src range drivers visitor c = (sel', c', outcome) ∧
      sel'.Sound whole stored ∧ sel'.cleared = sel.cleared ∧
      (outcome ≠ .ok .continue → sel' = sel.cleared) :=
  (query_read hserves.toReads.tries hsound hdrivers hvisit).resolve_right fun h =>
    h.1 hserves.toReads hserves.counts

/-- A query that completes has handed its visitor the contexts of its candidates. -/
theorem query_completed {visitor : QueryVisitor σ B} {c c' : σ} {range : TimeRange}
    {drivers : List Nat} {sel' : Selection}
    (htries : src.Tries sel.waveform sel.plan whole stored) (hsound : sel.Sound whole stored)
    (h : sel.query sizes src range drivers visitor c = (sel', c', .ok .continue)) :
    visitContexts visitor c (sel.contexts whole range drivers) = (c', .ok .continue) := by
  cases hdrivers : validateIndices sel.signals.length drivers with
  | error e =>
    unfold Selection.query at h
    rw [hdrivers] at h
    cases h
  | ok u =>
    rcases hvisit : visitContexts visitor c (sel.contexts whole range drivers) with ⟨d, outcome⟩
    rcases query_read htries hsound hdrivers hvisit with
      ⟨sel'', hquery, -⟩ | ⟨-, d', outcome', hquery, hne⟩
    · rw [hquery] at h
      cases h
      rfl
    · rw [hquery] at h
      cases h
      exact absurd rfl hne

/-! ## What a context reads -/

/-- A context is one of the traversed ticks, after the tick traversed before it. -/
theorem mem_contextsFrom {drivers : List Nat} {start : Nat} {previousTick : Option Nat}
    {previousEvents ticks : List Nat} {ctx : QueryContext}
    (h : ctx ∈ sel.contextsFrom whole drivers start previousTick previousEvents ticks) :
    ∃ before after, ticks = before ++ ctx.time :: after ∧ start ≤ ctx.time ∧
      sel.candidate whole drivers ctx.time = true ∧ ctx.signals = sel.signals ∧
      ctx.slots = sel.slotsAt whole ctx.time ∧ ctx.indices = sel.plan.indices ∧
      (before = [] ∧ ctx.previousTick = previousTick ∧ ctx.previousEvents = previousEvents ∨
        ∃ earlier t, before = earlier ++ [t] ∧ ctx.previousTick = some t ∧
          ctx.previousEvents = (sel.slotsAt whole t).map Slot.events) := by
  induction ticks generalizing previousTick previousEvents with
  | nil => cases h
  | cons t ticks ih =>
    rw [Selection.contextsFrom] at h
    rcases List.mem_append.1 h with h | h
    · split at h
      · next hcandidate =>
        rw [List.mem_singleton] at h
        subst h
        exact ⟨[], ticks, rfl, hcandidate.1, hcandidate.2, rfl, rfl, rfl, .inl ⟨rfl, rfl, rfl⟩⟩
      · cases h
    · obtain ⟨before, after, hsplit, hstart, hcandidate, hsignals, hslots, hindices, hprevious⟩ :=
        ih h
      refine ⟨t :: before, after, by rw [hsplit]; rfl, hstart, hcandidate, hsignals, hslots,
        hindices, .inr ?_⟩
      rcases hprevious with ⟨rfl, htick, hevents⟩ | ⟨earlier, t', rfl, htick, hevents⟩
      · exact ⟨[], t, rfl, htick, hevents⟩
      · exact ⟨t :: earlier, t', rfl, htick, hevents⟩

/-- The candidate ticks of a query, in order. -/
theorem contextsFrom_times {drivers : List Nat} {start : Nat} (previousTick : Option Nat)
    (previousEvents ticks : List Nat) :
    (sel.contextsFrom whole drivers start previousTick previousEvents ticks).map QueryContext.time =
      ticks.filter fun t => decide (start ≤ t) && sel.candidate whole drivers t := by
  induction ticks generalizing previousTick previousEvents with
  | nil => rfl
  | cons t ticks ih =>
    rw [Selection.contextsFrom, List.map_append, ih, List.filter_cons]
    by_cases hcandidate : start ≤ t ∧ sel.candidate whole drivers t = true
    · rw [if_pos hcandidate, if_pos (by simpa using hcandidate)]
      rfl
    · rw [if_neg hcandidate, if_neg (by simpa using hcandidate)]
      rfl

/-- The entry a context reads. -/
theorem context_entry (hsound : sel.Sound whole stored) {ctx : QueryContext} {i : Nat} {s : Signal}
    (hsignals : ctx.signals = sel.signals) (hslots : ctx.slots = sel.slotsAt whole ctx.time)
    (hindices : ctx.indices = sel.plan.indices) (hi : sel.signals[i]? = some s) :
    (entrySlots ctx.signals ctx.indices ctx.slots)[i]? =
      some (i, s, sel.waveform.viewSlot whole ctx.time s) := by
  rw [hsignals, hslots, hindices, Selection.slotsAt, entrySlots_map hsound.plans, List.getElem?_map,
    List.getElem?_zipIdx, hi]
  simp

/-- A slot of a tick that is not an event is the sample of the tick before it. -/
theorem sample_view_previous {w : Waveform} {recs : List Record} {signal : Signal} {t : Nat}
    (ht : 0 < t) (hpersistent : signal.encoding ≠ .event) :
    (w.viewSlot recs t signal).sample signal none = w.sampleAt recs (t - 1) signal := by
  obtain ⟨t, rfl⟩ : ∃ t', t = t' + 1 := ⟨t - 1, by omega⟩
  unfold Slot.sample Waveform.sampleAt
  rw [if_neg hpersistent, if_neg hpersistent, Nat.add_sub_cancel, ← Waveform.enteredAt_succ]
  have hstate : (w.viewSlot recs (t + 1) signal).state =
    stateOf (w.enteredAt recs signal (t + 1)) := rfl
  rw [hstate]
  cases w.enteredAt recs signal (t + 1) with
  | none => rfl
  | some entry => simp [stateOf]

/-- A context of a query reads the samples of its tick. -/
theorem contexts_sample (hsorted : Chronological whole) (htyped : Typed sel.waveform whole)
    (hsound : sel.Sound whole stored) {range : TimeRange} {drivers : List Nat} {ctx : QueryContext}
    (h : ctx ∈ sel.contexts whole range drivers) {i : Nat} {s : Signal}
    (hi : sel.signals[i]? = some s) :
    ctx.sample ctx.time i = some (sel.waveform.sampleAt whole ctx.time s) := by
  unfold Selection.contexts at h
  split at h
  · cases h
  · obtain ⟨-, -, -, -, -, hsignals, hslots, hindices, -⟩ := mem_contextsFrom h
    have hvalid := hsound.plans.valid_signals s (List.mem_of_getElem? hi)
    unfold QueryContext.sample
    rw [context_entry hsound hsignals hslots hindices hi, Option.map_some]
    dsimp only
    rw [if_pos rfl, sample_view hsorted htyped hvalid]

/-- The tick before a context's tick was traversed just before it, if it was recorded. -/
theorem previous_recorded (hsorted : Chronological whole) {range : TimeRange} {t : Nat}
    {before after : List Nat} (hsplit : sel.queryTicks whole range = before ++ t :: after)
    (hstart : range.start ≤ t) (ht : 0 < t) (hrecorded : ∃ r ∈ whole, r.time = t - 1) :
    ∃ earlier, before = earlier ++ [t - 1] := by
  have hincreasing : (sel.queryTicks whole range).Pairwise (· < ·) :=
    published_increasing (upTo_chronological hsorted _) _
  have hmem : t ∈ sel.queryTicks whole range := by rw [hsplit]; simp
  obtain ⟨⟨last, hlast, rfl⟩, -⟩ := mem_published.1 hmem
  obtain ⟨r, hr, htime⟩ := hrecorded
  have hprevious : last.time - 1 ∈ sel.queryTicks whole range := by
    refine mem_published.2 ⟨⟨r, (mem_upTo hsorted).2 ⟨hr, ?_⟩, htime⟩, fun s hs => ?_⟩
    · have := upTo_le last hlast
      omega
    · split at hs
      · cases hs
      · cases hs
        omega
  rw [hsplit] at hprevious hincreasing
  obtain ⟨hbefore, hafter, hacross⟩ := List.pairwise_append.1 hincreasing
  have hin : last.time - 1 ∈ before := by
    rcases List.mem_append.1 hprevious with hin | hin
    · exact hin
    · rcases List.mem_cons.1 hin with heq | hin
      · omega
      · have := (List.pairwise_cons.1 hafter).1 _ hin
        omega
  obtain ⟨earlier, later, rfl⟩ := List.append_of_mem hin
  cases later with
  | nil => exact ⟨earlier, rfl⟩
  | cons τ later =>
    have hlt := (List.pairwise_cons.1 (List.pairwise_append.1 hbefore).2.1).1 τ (by simp)
    have := hacross τ (by simp) last.time (by simp)
    omega

/-- A context of a query reads the samples of the tick before it. -/
theorem contexts_sample_before (hsorted : Chronological whole)
    (hsound : sel.Sound whole stored) {range : TimeRange} {drivers : List Nat} {ctx : QueryContext}
    (h : ctx ∈ sel.contexts whole range drivers) (ht : 0 < ctx.time) {i : Nat} {s : Signal}
    (hi : sel.signals[i]? = some s) :
    ctx.sample (ctx.time - 1) i = some (sel.waveform.sampleAt whole (ctx.time - 1) s) := by
  unfold Selection.contexts at h
  split at h
  · cases h
  · obtain ⟨before, after, hsplit, hstart, -, hsignals, hslots, hindices, hprevious⟩ :=
      mem_contextsFrom h
    unfold QueryContext.sample
    rw [context_entry hsound hsignals hslots hindices hi, Option.map_some]
    dsimp only
    rw [if_neg (by omega)]
    by_cases hevent : s.encoding = .event
    · have hslot : (sel.waveform.viewSlot whole ctx.time s).sample s none = .event s 0 := by
        unfold Slot.sample
        rw [if_pos hevent]
        rfl
      have hsample : sel.waveform.sampleAt whole (ctx.time - 1) s =
          .event s (countAt whole s (ctx.time - 1)) := by
        unfold Waveform.sampleAt
        rw [if_pos hevent]
      rw [hslot, hsample]
      dsimp only
      congr 2
      by_cases hrecorded : ∃ r ∈ whole, r.time = ctx.time - 1
      · obtain ⟨earlier, rfl⟩ := previous_recorded hsorted hsplit hstart ht hrecorded
        rcases hprevious with ⟨hnil, -⟩ | ⟨earlier', t, heq, htick, hevents⟩
        · simp at hnil
        · obtain ⟨-, ht'⟩ := List.append_inj' heq rfl
          cases ht'
          obtain ⟨slot, hslot, hretained⟩ := hsound.plans.slot hi
          have hindex : ctx.indices.getD i 0 = slot := by
            rw [hindices, List.getD_eq_getElem?_getD, hslot, Option.getD_some]
          rw [if_pos htick, hevents, hindex, List.getD_eq_getElem?_getD, List.getElem?_map,
            Selection.slotsAt, List.getElem?_map,
            hretained]
          rfl
      · have hcount : countAt whole s (ctx.time - 1) = 0 :=
          countAt_unrecorded fun r hr htime => hrecorded ⟨r, hr, htime⟩
        rw [hcount, if_neg]
        intro htick
        rcases hprevious with ⟨-, hnone, -⟩ | ⟨earlier, t, rfl, hsome, -⟩
        · rw [hnone] at htick; cases htick
        · rw [hsome, Option.some.injEq] at htick
          have hmem : t ∈ sel.queryTicks whole range := by rw [hsplit]; simp
          obtain ⟨⟨r, hr, htime⟩, -⟩ := mem_published.1 hmem
          exact hrecorded ⟨r, ((mem_upTo hsorted).1 hr).1, htime.trans htick⟩
    · rw [sample_view_previous ht hevent]
      unfold Waveform.sampleAt
      rw [if_neg hevent]
      cases sel.waveform.committedAt whole s (ctx.time - 1) <;> rfl

end
end Ondas.Query
