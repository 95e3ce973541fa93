import Ondas.Query.Observe

/-!
# Points and traces

Three ways to read a tick: the scan of the point (`samples_served`), a saved trace that covers it
(`Trace.sample_saved`), and one traversal for many ticks (`samplesAt_served`). Each delivers
`Waveform.sampleAt`.
-/

namespace Ondas.Query

open Library
open Vcd (Position)

section
variable {σ B : Type} {whole : List Record} {stored : Position → List Record → Prop}
  {sizes : Sizes} {src : Source} {sel : Selection}

/-! ## The scan of a point -/

/-- The samples of a selection at a tick. -/
def Selection.sampleAt (sel : Selection) (whole : List Record) (t : Nat) : List Sample :=
  sel.signals.map (sel.waveform.sampleAt whole t)

/-- The window of a point holds its tick when the tick is recorded. -/
theorem published_point {recs : List Record} (hsorted : Chronological recs) (t : Nat) :
    published (upTo t recs) (some t) = [t] ∨
      published (upTo t recs) (some t) = [] ∧ ∀ r ∈ recs, r.time ≠ t := by
  have hwindow : ∀ τ, τ ∈ published (upTo t recs) (some t) ↔ τ = t ∧ ∃ r ∈ recs, r.time = t := by
    intro τ
    rw [mem_published]
    constructor
    · rintro ⟨⟨r, hr, rfl⟩, hge⟩
      have heq : r.time = t := Nat.le_antisymm (upTo_le r hr) (hge t rfl)
      exact ⟨heq, r, (List.takeWhile_sublist _).subset hr, heq⟩
    · rintro ⟨rfl, r, hr, heq⟩
      refine ⟨⟨r, ?_, heq⟩, fun s hs => by cases hs; exact Nat.le_refl _⟩
      rw [← upTo_append_past τ recs] at hr
      rcases List.mem_append.1 hr with hr | hr
      · exact hr
      · have := past_gt hsorted r hr
        omega
  have hincreasing := published_increasing
    (hsorted.sublist (List.takeWhile_sublist fun r : Record => decide (r.time ≤ t))) (some t)
  by_cases hrecorded : ∃ r ∈ recs, r.time = t
  · refine .inl (List.Pairwise.eq_of_mem_iff hincreasing (List.pairwise_singleton _ t) fun τ => ?_)
    refine (hwindow τ).trans ?_
    rw [List.mem_singleton]
    exact and_iff_left hrecorded
  · refine .inr ⟨List.eq_nil_iff_forall_not_mem.2 fun τ hτ => hrecorded ((hwindow τ).1 hτ).2, ?_⟩
    exact fun r hr heq => hrecorded ⟨r, hr, heq⟩

/-- The emissions of an entry in the window of a point. -/
theorem recordsOf_point {w : Waveform} {recs : List Record} {signals : List Signal} {i : Nat}
    {s : Signal} (hsorted : Chronological recs) (hvalid : w.Valid s) (h : signals[i]? = some s)
    (t : Nat) : recordsOf i (w.emissions recs signals t t) =
      (w.initialAt recs t s).toList ++ w.changesAt recs t s := by
  rw [recordsOf_emissions h]
  rcases published_point hsorted t with htick | ⟨hnone, hquiet⟩
  · rw [htick, List.flatMap_singleton]
  · rw [hnone, List.flatMap_nil, changesAt_unrecorded hvalid hquiet]

/-- A collected point folds the records of each entry. -/
theorem foldl_collectPoint (records : List (Nat × ScanRef)) (states : List (Option State))
    (events : List Nat) (i : Nat) :
    (records.foldl collectPoint (states, events)).1[i]? =
        states[i]?.map (fun state => (recordsOf i records).foldl pointState state) ∧
      (records.foldl collectPoint (states, events)).2[i]? =
        events[i]?.map fun count => (recordsOf i records).foldl pointEvents count := by
  have hpair : records.foldl collectPoint (states, events) =
      (records.foldl (fun cells u => cells.modify u.1 (pointState · u.2)) states,
        records.foldl (fun cells u => cells.modify u.1 (pointEvents · u.2)) events) := by
    induction records generalizing states events with
    | nil => rfl
    | cons record records ih => exact ih ..
  rw [hpair]
  exact ⟨foldl_modify_getElem? pointState records states i,
    foldl_modify_getElem? pointEvents records events i⟩

/-- The samples of a point are those of its tick, entry by entry. -/
theorem collected_samples (hcarries : src.Carries sel.waveform sel.plan whole stored)
    (hsound : sel.Sound whole stored) (t : Nat) :
    let point := (sel.emissions whole (.point t)).foldl collectPoint
      (List.replicate sel.signals.length none, List.replicate sel.signals.length 0)
    (sel.signals.zip (point.1.zip point.2)).map (fun entry =>
      pointSample entry.1 entry.2.1 entry.2.2) = sel.sampleAt whole t := by
  intro point
  have hend : sel.waveform.scanEnd (.point t) = t := rfl
  have hidle : sel.idleScan (.point t) = sel.signals.isEmpty := by
    unfold Selection.idleScan
    rw [hend]
    simp [TimeRange.point, TimeRange.isEmpty]
  refine List.ext_getElem? fun i => ?_
  simp only [List.getElem?_map, Selection.sampleAt, List.zip, List.getElem?_zipWith]
  cases hs : sel.signals[i]? with
  | none => rfl
  | some s =>
    obtain ⟨hlt, -⟩ := List.getElem?_eq_some_iff.1 hs
    have hne : sel.signals.isEmpty = false := by
      cases hsignals : sel.signals with
      | nil => rw [hsignals] at hlt; exact absurd hlt (Nat.not_lt_zero _)
      | cons => rfl
    have hemissions : sel.emissions whole (.point t) =
        sel.waveform.emissions whole sel.signals t t := by
      unfold Selection.emissions
      rw [hidle, hne, if_neg (by decide)]
      rfl
    have hvalid := hsound.plans.valid_signals s (List.mem_of_getElem? hs)
    obtain ⟨hstates, hevents⟩ := foldl_collectPoint (sel.emissions whole (.point t))
      (List.replicate sel.signals.length none) (List.replicate sel.signals.length 0) i
    rw [List.getElem?_replicate, if_pos hlt, hemissions] at hstates hevents
    rw [show point = (sel.emissions whole (.point t)).foldl collectPoint
      (List.replicate sel.signals.length none, List.replicate sel.signals.length 0) from rfl,
      hemissions, hstates, hevents]
    simp only [Option.map_some]
    rw [pointSample_eq hcarries.chronological hcarries.typed hvalid
      (recordsOf_point hcarries.chronological hvalid hs t)]

/-- Visiting the samples of a point visits those of its tick, or the read fails before the visitor
is called. -/
theorem visitSamples_read {visitor : σ → Sample → σ × ControlFlow B} {c c' : σ}
    {flow : ControlFlow B} {t : Nat} (htries : src.Tries sel.waveform sel.plan whole stored)
    (hsound : sel.Sound whole stored)
    (hvisit : visit visitor c (sel.sampleAt whole t) = (c', flow)) :
    (∃ sel', sel.visitSamples sizes src t visitor c = (sel', c', .ok flow) ∧
      sel'.Sound whole stored ∧ sel'.cleared = sel.cleared ∧
      (flow ≠ .continue → sel' = sel.cleared)) ∨
    (src.Reads sel.waveform sel.plan whole stored → ¬ Counted whole) ∧
      ∃ e, sel.visitSamples sizes src t visitor c = (sel.cleared, c, .error e) := by
  have hscan := visit_continue (B := Unit) collectPoint
    (List.replicate sel.signals.length none, List.replicate sel.signals.length 0)
    (sel.emissions whole (.point t))
  unfold Selection.visitSamples
  rcases scanEach_read htries hsound hscan with
    ⟨sel', hread, hsound', hcleared, -⟩ | ⟨hcounted, d, outcome, hread, -, hfails⟩
  · have hsignals : sel'.signals = sel.signals := by
      have h := congrArg Selection.signals hcleared
      exact h
    have hsamples := collected_samples htries.toCarries hsound t
    dsimp only at hsamples
    rw [hread]
    dsimp only
    rw [hsignals, hsamples, hvisit]
    cases flow with
    | «continue» => exact .inl ⟨sel', rfl, hsound', hcleared, fun h => absurd rfl h⟩
    | «break» b =>
      exact .inl ⟨sel'.cleared, rfl, ⟨hsound'.plans, nofun, nofun⟩, hcleared, fun _ => hcleared⟩
  · obtain ⟨e, rfl⟩ := hfails fun _ _ => rfl
    rw [hread]
    exact .inr ⟨hcounted, e, rfl⟩

/-- Visiting the samples of a point of a served stream visits those of its tick. -/
theorem visitSamples_served {visitor : σ → Sample → σ × ControlFlow B} {c c' : σ}
    {flow : ControlFlow B} {t : Nat} (hserves : src.Serves sel.waveform sel.plan whole stored)
    (hsound : sel.Sound whole stored)
    (hvisit : visit visitor c (sel.sampleAt whole t) = (c', flow)) :
    ∃ sel', sel.visitSamples sizes src t visitor c = (sel', c', .ok flow) ∧
      sel'.Sound whole stored ∧ sel'.cleared = sel.cleared ∧
      (flow ≠ .continue → sel' = sel.cleared) :=
  (visitSamples_read hserves.toReads.tries hsound hvisit).resolve_right fun h =>
    h.1 hserves.toReads hserves.counts

/-- The samples of a point are those of its tick, or an error. -/
theorem samples_read {t : Nat} (htries : src.Tries sel.waveform sel.plan whole stored)
    (hsound : sel.Sound whole stored) :
    (∃ sel', sel.samples sizes src t = (sel', .ok (sel.sampleAt whole t)) ∧
      sel'.Sound whole stored ∧ sel'.cleared = sel.cleared) ∨
    (src.Reads sel.waveform sel.plan whole stored → ¬ Counted whole) ∧
      ∃ e, sel.samples sizes src t = (sel.cleared, .error e) := by
  unfold Selection.samples
  rcases visitSamples_read htries hsound (visit_push [] (sel.sampleAt whole t)) with
    ⟨sel', hread, hsound', hcleared, -⟩ | ⟨hcounted, e, hread⟩
  · rw [hread]
    exact .inl ⟨sel', rfl, hsound', hcleared⟩
  · rw [hread]
    exact .inr ⟨hcounted, e, rfl⟩

/-- The samples of a point of a served stream are those of its tick. -/
theorem samples_served {t : Nat} (hserves : src.Serves sel.waveform sel.plan whole stored)
    (hsound : sel.Sound whole stored) :
    ∃ sel', sel.samples sizes src t = (sel', .ok (sel.sampleAt whole t)) ∧
      sel'.Sound whole stored ∧ sel'.cleared = sel.cleared :=
  (samples_read hserves.toReads.tries hsound).resolve_right fun h =>
    h.1 hserves.toReads hserves.counts

end

/-! ## Traces -/

namespace Waveform
variable (w : Waveform) (recs : List Record) (signal : Signal)

/-- What a scan keeps of a handle at a tick. -/
def netAt (t : Nat) : Option Value :=
  if signal.encoding = .event then
    if 0 < countAt recs signal t then some (.event (countAt recs signal t)) else none
  else if w.valueAt recs signal t = w.enteringAt recs signal t then none
  else w.valueAt recs signal t

/-- What a scan keeps of a handle at a tick, as a trace saves it. -/
def savedAt (t : Nat) : Option Change := (w.netAt recs signal t).map (Change.mk t)

/-- The trace of a handle over a window. -/
def traceAt (range : TimeRange) (stop : Nat) : Trace :=
  { signal := signal
    range := range
    initial := (w.enteredAt recs signal range.start).map fun entry => ⟨entry.1, entry.2⟩
    changes := (published (upTo stop recs) (some range.start)).filterMap (w.savedAt recs signal) }

end Waveform

/-- The traces of a selection. -/
def Selection.tracesOf (sel : Selection) (whole : List Record) (range : TimeRange) : List Trace :=
  sel.signals.map fun signal =>
    if sel.idleScan range then ⟨signal, range, none, []⟩
    else sel.waveform.traceAt whole signal range (sel.waveform.scanEnd range)

section
variable {w : Waveform} {recs : List Record} {signal : Signal} {t : Nat}

/-- The records of a handle at a tick are what a scan keeps of it. -/
theorem changesAt_net (htyped : Typed w recs) (hvalid : w.Valid signal) :
    w.changesAt recs t signal = (w.netAt recs signal t).toList.map (.change signal t) := by
  unfold Waveform.netAt
  by_cases hevent : signal.encoding = .event
  · rw [changesAt_event htyped hvalid hevent, if_pos hevent]
    split <;> rfl
  · rw [changesAt_persistent htyped hvalid hevent, if_neg hevent]
    split <;> rfl

/-- What a scan keeps is owned. -/
theorem netAt_owned (htyped : Typed w recs) (hvalid : w.Valid signal) {v : Value}
    (h : w.netAt recs signal t = some v) : v.toOwned = v := by
  unfold Waveform.netAt at h
  split at h
  · split at h
    · cases h; rfl
    · cases h
  · split at h
    · cases h
    · exact Waveform.valueAt_owned htyped hvalid h

/-- Saving the records of some ticks. -/
theorem foldl_save (htyped : Typed w recs) (hvalid : w.Valid signal) (ticks : List Nat)
    (trace : Trace) :
    (ticks.flatMap fun t => w.changesAt recs t signal).foldl Trace.save trace =
      { trace with changes := trace.changes ++ ticks.filterMap (w.savedAt recs signal) } := by
  induction ticks generalizing trace with
  | nil => simp
  | cons t ticks ih =>
    rw [List.flatMap_cons, List.foldl_append, changesAt_net htyped hvalid]
    cases hnet : w.netAt recs signal t with
    | none =>
      rw [Option.toList_none, List.map_nil, List.foldl_nil, ih,
        List.filterMap_cons_none (by rw [Waveform.savedAt, hnet]; rfl)]
    | some v =>
      rw [Option.toList_some, List.map_singleton, List.foldl_cons, List.foldl_nil, ih,
        List.filterMap_cons_some (b := Change.mk t v) (by rw [Waveform.savedAt, hnet]; rfl)]
      simp [Trace.save, netAt_owned htyped hvalid hnet]

/-- A quiet tick keeps nothing, and only quiet ticks do. -/
theorem netAt_none (hsorted : Chronological recs) (htyped : Typed w recs) (hvalid : w.Valid signal)
    (hpersistent : signal.encoding ≠ .event) :
    w.netAt recs signal t = none ↔ w.valueAt recs signal t = w.enteringAt recs signal t := by
  unfold Waveform.netAt
  rw [if_neg hpersistent]
  by_cases hsame : w.valueAt recs signal t = w.enteringAt recs signal t
  · rw [if_pos hsame]
    exact iff_of_true rfl hsame
  · rw [if_neg hsame]
    obtain ⟨v, hv, -⟩ := committedAt_changed hsorted htyped hvalid hsame
    rw [hv]
    exact iff_of_false nofun (hv ▸ hsame)

/-- Before any kept tick the state is the one that entered the window. -/
theorem enteredAt_steady {start : Nat} (hle : start ≤ t)
    (h : ∀ τ, start ≤ τ → τ < t → w.valueAt recs signal τ = w.enteringAt recs signal τ) :
    w.enteredAt recs signal t = w.enteredAt recs signal start := by
  rcases Nat.eq_or_lt_of_le hle with rfl | hlt
  · rfl
  · obtain ⟨t, rfl⟩ : ∃ t', t = t' + 1 := ⟨t - 1, by omega⟩
    rw [Waveform.enteredAt_succ]
    exact committedAt_steady (by omega) fun τ hτ hτ' => h τ hτ (by omega)

/-- After the last kept tick the state is the one it left. -/
theorem committedAt_after {τ : Nat} (hle : τ ≤ t)
    (h : ∀ τ', τ < τ' → τ' ≤ t → w.valueAt recs signal τ' = w.enteringAt recs signal τ') :
    w.committedAt recs signal t = w.committedAt recs signal τ := by
  rcases Nat.eq_or_lt_of_le hle with rfl | hlt
  · rfl
  · rw [committedAt_steady hlt fun τ' hτ' => h τ' hτ', Waveform.enteredAt_succ]

/-- A known value stays known. -/
theorem enteredAt_known (htyped : Typed w recs) (hvalid : w.Valid signal) {s : Nat} (hst : s ≤ t)
    (h : (w.enteringAt recs signal s).isSome = true) : ∃ u changed,
      w.enteredAt recs signal t = some (u, changed) ∧ w.enteringAt recs signal t = some u := by
  cases hentering : w.enteringAt recs signal t with
  | none =>
    rw [Waveform.enteringAt_mono htyped hvalid hst hentering] at h
    cases h
  | some u =>
    refine ⟨u, (w.enteredAt recs signal t).bind Prod.snd, ?_, rfl⟩
    simp [Waveform.enteredAt, entered, hentering]

/-- The partition point selects the last change up to the tick. -/
theorem partitionPoint_getLast? {α : Type*} (l : List α) (p : α → Bool) :
    (if (l.takeWhile p).length = 0 then none else l[(l.takeWhile p).length - 1]?) =
      (l.takeWhile p).getLast? := by
  split
  · next hzero => rw [List.length_eq_zero_iff.1 hzero]; rfl
  · next hpos =>
    obtain ⟨rest, hrest⟩ := List.takeWhile_prefix (l := l) p
    calc l[(l.takeWhile p).length - 1]?
        = (l.takeWhile p ++ rest)[(l.takeWhile p).length - 1]? := by rw [hrest]
      _ = (l.takeWhile p).getLast? := by
          rw [List.getElem?_append_left (by omega), List.getLast?_eq_getElem?]

/-- The kept ticks of a window, up to a tick. -/
def keptTicks (recs : List Record) (range : TimeRange) (stop t : Nat) : List Nat :=
  (published (upTo stop recs) (some range.start)).filter fun τ => decide (τ ≤ t)

/-- The ticks that are kept for a point are the recorded ones in the range up to it. -/
theorem mem_keptTicks (hsorted : Chronological recs) {range : TimeRange} {stop τ : Nat}
    (hstop : ∀ r ∈ recs, r.time ≤ t → r.time ≤ stop) : τ ∈ keptTicks recs range stop t ↔
      (∃ r ∈ recs, r.time = τ) ∧ range.start ≤ τ ∧ τ ≤ t := by
  rw [keptTicks, List.mem_filter, mem_published, decide_eq_true_eq]
  constructor
  · rintro ⟨⟨⟨r, hr, rfl⟩, hge⟩, hle⟩
    exact ⟨⟨r, ((mem_upTo hsorted).1 hr).1, rfl⟩, hge _ rfl, hle⟩
  · rintro ⟨⟨r, hr, rfl⟩, hge, hle⟩
    exact ⟨⟨⟨r, (mem_upTo hsorted).2 ⟨hr, hstop r hr hle⟩, rfl⟩,
      fun s hs => by cases hs; exact hge⟩, hle⟩

theorem keptTicks_increasing (hsorted : Chronological recs) (range : TimeRange) (stop t : Nat) :
    (keptTicks recs range stop t).Pairwise (· < ·) :=
  (published_increasing (upTo_chronological hsorted stop) _).sublist List.filter_sublist

/-- Sampling a covered tick looks at the last saved change up to it. -/
theorem Trace.sample_covered (hsorted : Chronological recs) {range : TimeRange} {stop : Nat}
    (hcovers : range.covers t) : (w.traceAt recs signal range stop).sample t =
      let kept := (keptTicks recs range stop t).filterMap (w.savedAt recs signal)
      if signal.encoding = .event then
        .ok (.event signal
          (match (kept.getLast?.filter fun change => decide (change.time = t)).map Change.value with
            | some (.event occurrences) => occurrences
            | _ => 0))
      else
        match kept.getLast? with
        | some change =>
          .ok (.value signal change.value
            (if 1 < kept.length ∨ (w.enteredAt recs signal range.start).isSome = true then
              some change.time else none))
        | none =>
          match w.enteredAt recs signal range.start with
          | some entry => .ok (.value signal entry.1 entry.2)
          | none => .ok (.missing signal) := by
  have hkept : (w.traceAt recs signal range stop).changes.takeWhile (fun change =>
      decide (change.time ≤ t)) = (keptTicks recs range stop t).filterMap (w.savedAt recs signal) :=
    takeWhile_kept (published_increasing (upTo_chronological hsorted stop) (some range.start))
      (fun τ c hc => by
        obtain ⟨v, -, rfl⟩ := Option.map_eq_some_iff.1 hc
        rfl) t
  have hcovered : (range.isEmpty || decide (t < range.start) ||
      range.stop.any fun stop => decide (stop < t)) = false := by
    unfold TimeRange.isEmpty
    cases hend : range.stop with
    | none => simpa using hcovers.1
    | some last =>
      have := hcovers.1
      have := hcovers.2 last hend
      simp
      omega
  unfold Trace.sample
  rw [show (w.traceAt recs signal range stop).range = range from rfl, hcovered, if_neg (by decide)]
  dsimp only
  rw [partitionPoint_getLast?, hkept, show (w.traceAt recs signal range stop).signal =
    signal from rfl,
    show (w.traceAt recs signal range stop).initial =
      (w.enteredAt recs signal range.start).map fun entry => ⟨entry.1, entry.2⟩ from rfl,
    Option.isSome_map]
  cases w.enteredAt recs signal range.start <;> rfl

/-- A saved trace of an event handle counts the events of a covered tick. -/
theorem saved_count (hsorted : Chronological recs) (hevent : signal.encoding = .event)
    {range : TimeRange} {stop : Nat} (hcovers : range.covers t)
    (hstop : ∀ r ∈ recs, r.time ≤ t → r.time ≤ stop) :
    (match (((keptTicks recs range stop t).filterMap (w.savedAt recs signal)).getLast?.filter
        fun change => decide (change.time = t)).map Change.value with
      | some (.event occurrences) => occurrences
      | _ => 0) = countAt recs signal t := by
  have hnet : ∀ τ, w.netAt recs signal τ = if 0 < countAt recs signal τ then
      some (.event (countAt recs signal τ)) else none := fun τ => by
    rw [Waveform.netAt, if_pos hevent]
  -- The tick is among the kept ones unless it counts nothing.
  have hzero : (∀ τ ∈ keptTicks recs range stop t, τ = t → w.savedAt recs signal τ = none) →
      0 = countAt recs signal t := by
    intro hnone
    by_contra hne
    have hrecorded : ∃ r ∈ recs, r.time = t := by
      by_contra hnot
      exact hne (countAt_unrecorded fun r hr heq => hnot ⟨r, hr, heq⟩).symm
    have hsaved := hnone t
      ((mem_keptTicks hsorted hstop).2 ⟨hrecorded, hcovers.1, Nat.le_refl _⟩) rfl
    rw [Waveform.savedAt, Option.map_eq_none_iff, hnet, if_pos (by omega)] at hsaved
    cases hsaved
  rcases kept_last (keptTicks_increasing hsorted range stop t) with
    ⟨hnil, hnone⟩ | ⟨before, τ, c, hsplit, hτ, hc, hafter, -, -⟩
  · rw [hnil]
    exact hzero fun τ hτ _ => hnone τ hτ
  · obtain ⟨v, hv, rfl⟩ := Option.map_eq_some_iff.1 hc
    rw [hsplit, List.getLast?_concat, Option.filter_some]
    by_cases hτt : τ = t
    · subst hτt
      rw [hnet] at hv
      split at hv
      · cases hv; simp
      · cases hv
    · simp only [hτt, decide_false, Bool.false_eq_true, if_false, Option.map_none]
      have hlt := Nat.lt_of_le_of_ne ((mem_keptTicks hsorted hstop).1 hτ).2.2 hτt
      exact hzero fun τ' hτ' heq => hafter τ' hτ' (heq ▸ hlt)

/-- A tick of the window without a saved change brings no value. -/
theorem valueAt_unsaved (range : TimeRange) (hsorted : Chronological recs) (htyped : Typed w recs)
    (hvalid : w.Valid signal) (hpersistent : signal.encoding ≠ .event)
    {stop : Nat} (hstop : ∀ r ∈ recs, r.time ≤ t → r.time ≤ stop) {τ : Nat}
    (hge : range.start ≤ τ) (hle : τ ≤ t)
    (hnone : τ ∈ keptTicks recs range stop t → w.savedAt recs signal τ = none) :
    w.valueAt recs signal τ = w.enteringAt recs signal τ := by
  by_cases hrecorded : ∃ r ∈ recs, r.time = τ
  · exact (netAt_none hsorted htyped hvalid hpersistent).1 (Option.map_eq_none_iff.1
      (hnone ((mem_keptTicks hsorted hstop).2 ⟨hrecorded, hge, hle⟩)))
  · exact valueAt_unrecorded hvalid fun r hr heq => hrecorded ⟨r, hr, heq⟩

/-- A saved change settles its value. -/
theorem savedAt_settles (hsorted : Chronological recs) (htyped : Typed w recs)
    (hvalid : w.Valid signal) (hpersistent : signal.encoding ≠ .event) {τ : Nat} {c : Change}
    (h : w.savedAt recs signal τ = some c) : ∃ v, c = ⟨τ, v⟩ ∧
      w.valueAt recs signal τ = some v ∧ w.enteringAt recs signal τ ≠ some v ∧
      w.committedAt recs signal τ = settle τ v (w.enteredAt recs signal τ) := by
  obtain ⟨v, hnet, rfl⟩ := Option.map_eq_some_iff.1 h
  have hchanged : w.valueAt recs signal τ ≠ w.enteringAt recs signal τ := fun hsame => by
    rw [(netAt_none hsorted htyped hvalid hpersistent).2 hsame] at hnet
    cases hnet
  rw [Waveform.netAt, if_neg hpersistent, if_neg hchanged] at hnet
  obtain ⟨v', hv', hsettle⟩ := committedAt_changed hsorted htyped hvalid hchanged
  rw [hnet, Option.some.injEq] at hv'
  subst hv'
  exact ⟨v, rfl, hnet, fun hentering => hchanged (hnet.trans hentering.symm), hsettle⟩

/-- A change after a known value has its tick. -/
theorem settle_known (htyped : Typed w recs) (hvalid : w.Valid signal) {s τ : Nat} {v : Value}
    (hne : w.enteringAt recs signal τ ≠ some v) (hs : s ≤ τ)
    (hsome : (w.enteredAt recs signal s).isSome = true) :
    settle τ v (w.enteredAt recs signal τ) = some (v, some τ) := by
  have hentering := stateOf_entered w recs s signal
  obtain ⟨u, changed, hentered, hu⟩ := enteredAt_known htyped hvalid hs
    (by rw [← hentering]; simpa [stateOf] using hsome)
  rw [hentered, settle, if_neg]
  rintro rfl
  exact hne hu

/-- A saved trace of a persistent handle has the state of a covered tick. -/
theorem saved_state (hsorted : Chronological recs) (htyped : Typed w recs) (hvalid : w.Valid signal)
    (hpersistent : signal.encoding ≠ .event) {range : TimeRange} {stop : Nat}
    (hcovers : range.covers t) (hstop : ∀ r ∈ recs, r.time ≤ t → r.time ≤ stop) :
    let kept := (keptTicks recs range stop t).filterMap (w.savedAt recs signal)
    w.committedAt recs signal t =
      match kept.getLast? with
      | some change => some (change.value,
          if 1 < kept.length ∨ (w.enteredAt recs signal range.start).isSome = true then
            some change.time else none)
      | none => w.enteredAt recs signal range.start := by
  intro kept
  have hquiet := fun {τ} => valueAt_unsaved range (τ := τ) hsorted htyped hvalid hpersistent hstop
  rcases kept_last (keptTicks_increasing hsorted range stop t) with
    ⟨hnil, hnone⟩ | ⟨before, τ, c, hsplit, hτ, hc, hafter, hfirst, hmore⟩
  · rw [show kept = [] from hnil]
    exact committedAt_steady hcovers.1 fun τ hge hle => hquiet hge hle (hnone τ)
  · obtain ⟨-, hge, hle⟩ := (mem_keptTicks hsorted hstop).1 hτ
    obtain ⟨v, rfl, -, hne, hsettle⟩ := savedAt_settles hsorted htyped hvalid hpersistent hc
    rw [show kept = before ++ [⟨τ, v⟩] from hsplit, List.getLast?_concat,
      committedAt_after hle fun τ' hlt hle' => hquiet (by omega) hle' fun hτ' => hafter τ' hτ' hlt,
      hsettle]
    by_cases hinit : (w.enteredAt recs signal range.start).isSome = true
    · rw [settle_known htyped hvalid hne hge hinit]
      simp [hinit]
    · by_cases hbefore : before = []
      · -- The first change without an entering state.
        have hsame := enteredAt_steady hge fun τ' hge' hlt =>
          hquiet hge' (by omega) fun hτ' => hfirst hbefore τ' hτ' hlt
        have hnone : w.enteredAt recs signal range.start = none := by simpa using hinit
        rw [hsame, hnone, hbefore]
        rfl
      · obtain ⟨τ₀, -, hlt, hsome⟩ := hmore hbefore
        obtain ⟨c₀, hc₀⟩ := Option.isSome_iff_exists.1 hsome
        obtain ⟨u, -, hu, -, -⟩ := savedAt_settles hsorted htyped hvalid hpersistent hc₀
        have hknown : (w.enteredAt recs signal (τ₀ + 1)).isSome = true := by
          rw [Waveform.enteredAt_succ]
          simp [Waveform.committedAt, committed, hu]
        rw [settle_known htyped hvalid hne hlt hknown]
        have := List.length_pos_iff.2 hbefore
        simp [hbefore]

/-- A saved trace samples a covered tick like the stream. -/
theorem Trace.sample_saved (hsorted : Chronological recs) (htyped : Typed w recs)
    (hvalid : w.Valid signal) {range : TimeRange} {stop : Nat} (hcovers : range.covers t)
    (hstop : ∀ r ∈ recs, r.time ≤ t → r.time ≤ stop) :
    (w.traceAt recs signal range stop).sample t = .ok (w.sampleAt recs t signal) := by
  rw [Trace.sample_covered hsorted hcovers]
  dsimp only
  unfold Waveform.sampleAt
  by_cases hevent : signal.encoding = .event
  · rw [if_pos hevent, if_pos hevent, saved_count hsorted hevent hcovers hstop]
  · rw [if_neg hevent, if_neg hevent, saved_state hsorted htyped hvalid hevent hcovers hstop]
    cases ((keptTicks recs range stop t).filterMap (w.savedAt recs signal)).getLast? with
    | some change => rfl
    | none => cases w.enteredAt recs signal range.start <;> rfl

/-- The records of an entry save its trace. -/
theorem foldl_save_emissions (htyped : Typed w recs) (hvalid : w.Valid signal) {i : Nat}
    {signals : List Signal} (h : signals[i]? = some signal) (range : TimeRange) (stop : Nat) :
    (recordsOf i (w.emissions recs signals range.start stop)).foldl Trace.save
      ⟨signal, range, none, []⟩ = w.traceAt recs signal range stop := by
  have hinitial : (w.initialAt recs range.start signal).toList.foldl Trace.save
      ⟨signal, range, none, []⟩ = ⟨signal, range,
        (w.enteredAt recs signal range.start).map fun entry => ⟨entry.1, entry.2⟩, []⟩ := by
    unfold Waveform.initialAt
    cases hentered : w.enteredAt recs signal range.start with
    | none => rfl
    | some entry =>
      simp [Trace.save, enteredAt_owned htyped hvalid hentered]
  rw [recordsOf_emissions h, List.foldl_append, hinitial, foldl_save htyped hvalid]
  rfl

end

section
variable {whole : List Record} {stored : Position → List Record → Prop} {sizes : Sizes}
  {src : Source} {sel : Selection}

/-- The traces of a stream are saved entry by entry, or the read fails. -/
theorem traces_read {range : TimeRange} (htries : src.Tries sel.waveform sel.plan whole stored)
    (hsound : sel.Sound whole stored) :
    (∃ sel', sel.traces sizes src range = (sel', .ok (sel.tracesOf whole range)) ∧
      sel'.Sound whole stored ∧ sel'.cleared = sel.cleared) ∨
    (src.Reads sel.waveform sel.plan whole stored → ¬ Counted whole) ∧
      ∃ e, sel.traces sizes src range = (sel.cleared, .error e) := by
  have hscan := visit_continue (B := Unit) collectTrace
    (sel.signals.map fun signal => (⟨signal, range, none, []⟩ : Trace)) (sel.emissions whole range)
  unfold Selection.traces
  rcases scanEach_read htries hsound hscan with
    ⟨sel', hread, hsound', hcleared, -⟩ | ⟨hcounted, d, outcome, hread, -, hfails⟩
  · refine .inl ⟨sel', ?_, hsound', hcleared⟩
    rw [hread]
    dsimp only
    congr 2
    refine List.ext_getElem? fun i => ?_
    have hfold := foldl_modify_getElem? Trace.save (sel.emissions whole range)
      (sel.signals.map fun signal => (⟨signal, range, none, []⟩ : Trace)) i
    rw [show (sel.emissions whole range).foldl collectTrace _ = _ from rfl]
    refine hfold.trans ?_
    rw [Selection.tracesOf, List.getElem?_map, List.getElem?_map]
    cases hs : sel.signals[i]? with
    | none => rfl
    | some s =>
      simp only [Option.map_some, Option.some.injEq]
      unfold Selection.emissions
      split
      · rfl
      · exact foldl_save_emissions htries.typed
          (hsound.plans.valid_signals s (List.mem_of_getElem? hs)) hs range _
  · obtain ⟨e, rfl⟩ := hfails fun _ _ => rfl
    rw [hread]
    exact .inr ⟨hcounted, e, rfl⟩

/-- The traces of a served stream are saved entry by entry. -/
theorem traces_served {range : TimeRange} (hserves : src.Serves sel.waveform sel.plan whole stored)
    (hsound : sel.Sound whole stored) :
    ∃ sel', sel.traces sizes src range = (sel', .ok (sel.tracesOf whole range)) ∧
      sel'.Sound whole stored ∧ sel'.cleared = sel.cleared :=
  (traces_read hserves.toReads.tries hsound).resolve_right fun h =>
    h.1 hserves.toReads hserves.counts

/-- The records up to a tick of a range are up to the end of its scan. -/
theorem scanEnd_covers {w : Waveform} {plan : Plan} (hcarries : src.Carries w plan whole stored)
    {range : TimeRange} {t : Nat} (hcovers : range.covers t) :
    ∀ r ∈ whole, r.time ≤ t → r.time ≤ w.scanEnd range := by
  intro r hr hle
  have hspan := hcarries.span r hr
  unfold Waveform.scanEnd
  cases hstop : range.stop with
  | some stop => exact Nat.le_trans hle (hcovers.2 stop hstop)
  | none =>
    cases htimes : w.timeSpan with
    | none => rw [htimes] at hspan; exact hspan
    | some span =>
      rw [htimes] at hspan
      exact Nat.le_trans hspan (Nat.le_max_left _ _)

/-- A range that covers a tick of the clock does not end before it starts. -/
theorem start_le_scanEnd {w : Waveform} {range : TimeRange} {t : Nat} (ht : t ≤ u64Max)
    (hcovers : range.covers t) : range.isEmpty = false ∧ range.start ≤ w.scanEnd range := by
  have hge := hcovers.1
  unfold TimeRange.isEmpty Waveform.scanEnd
  cases hstop : range.stop with
  | some stop =>
    have hle := hcovers.2 stop hstop
    exact ⟨by simp; omega, Nat.le_trans hge hle⟩
  | none =>
    refine ⟨rfl, ?_⟩
    cases w.timeSpan with
    | none => exact Nat.le_trans hge ht
    | some span => exact Nat.le_max_right _ _

/-- Every trace of a served stream samples a covered tick like the stream. -/
theorem tracesOf_sample {range : TimeRange} {t : Nat} (ht : t ≤ u64Max)
    (hserves : src.Serves sel.waveform sel.plan whole stored) (hsound : sel.Sound whole stored)
    (hcovers : range.covers t) : (sel.tracesOf whole range).map (fun trace => trace.sample t) =
      (sel.sampleAt whole t).map .ok := by
  obtain ⟨hempty, hle⟩ := start_le_scanEnd (w := sel.waveform) ht hcovers
  rw [Selection.tracesOf, Selection.sampleAt, List.map_map, List.map_map]
  refine List.map_congr_left fun s hs => ?_
  have hidle : sel.idleScan range = false := by
    have hne : sel.signals.isEmpty = false := by
      cases hsignals : sel.signals with
      | nil => rw [hsignals] at hs; cases hs
      | cons => rfl
    simp [Selection.idleScan, hempty, hle, hne]
  simp only [Function.comp, hidle, Bool.false_eq_true, if_false]
  exact Trace.sample_saved hserves.chronological hserves.typed
    (hsound.plans.valid_signals s hs) hcovers (scanEnd_covers hserves.toCarries hcovers)

end
end Ondas.Query
