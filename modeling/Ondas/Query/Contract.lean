import Ondas.Query.Session

/-!
# What the read interfaces promise

The promises of scans, samples, traces and queries, of any selection that operations leave and any
reader of a stream. The first part says what `emissions` are in terms of the values of the stream;
the rest compares the interfaces.
-/

namespace Ondas.Query

open Library
open Vcd (Position)

/-! ## The records of a scan -/

/-- The tick of a change. -/
def ScanRef.time? : ScanRef → Option Nat
  | .initial .. => none
  | .change _ t _ => some t

/-- The changes of an entry at a tick. -/
def changesOf (i t : Nat) (records : List (Nat × ScanRef)) : List ScanRef :=
  (recordsOf i records).filter fun record => record.time? == some t

/-- What a scan hands its visitor: the entering states of the entries, in selection order, then the
changes, in order and in the window. Each tick has the final value of an entry when it is not the
one that entered the tick, and the sum of its events. -/
structure Emits (w : Waveform) (recs : List Record) (signals : List Signal) (start stop : Nat)
    (first later : List (Nat × ScanRef)) : Prop where
  first : first = signals.zipIdx.filterMap fun entry =>
    (w.enteredAt recs entry.1 start).map fun state =>
      (entry.2, .initial entry.1 state.1 state.2)
  ordered : later.Pairwise fun a b =>
    ∀ t t', a.2.time? = some t → b.2.time? = some t' → t ≤ t'
  inside : ∀ r ∈ later, ∃ s t v, signals[r.1]? = some s ∧ r.2 = .change s t v ∧ start ≤ t ∧ t ≤ stop
  persistent : ∀ i s t, signals[i]? = some s → s.encoding ≠ .event → start ≤ t → t ≤ stop →
    changesOf i t later =
      match w.valueAt recs s t with
      | some v =>
        if (w.enteringAt recs s t).any fun u => u.sameValue v then [] else [.change s t v]
      | none => []
  event : ∀ i s t, signals[i]? = some s → s.encoding = .event → start ≤ t → t ≤ stop →
    changesOf i t later =
      if 0 < countAt recs s t then [.change s t (.event (countAt recs s t))] else []

/-- A block among those of different ticks. -/
theorem flatMap_single {α : Type*} {ticks : List Nat} (hnodup : ticks.Nodup) (t : Nat)
    (f : Nat → List α) :
    (ticks.flatMap fun τ => if τ = t then f τ else []) = if t ∈ ticks then f t else [] := by
  induction ticks with
  | nil => rfl
  | cons τ ticks ih =>
    obtain ⟨hnot, hnodup⟩ := List.nodup_cons.1 hnodup
    rw [List.flatMap_cons, ih hnodup]
    by_cases hτ : τ = t
    · subst hτ
      rw [if_pos rfl, if_neg hnot, if_pos (by simp), List.append_nil]
    · rw [if_neg hτ, List.nil_append]
      simp [Ne.symm hτ]

section
variable {w : Waveform} {recs : List Record} {signals : List Signal} {start stop : Nat}

/-- The records of a handle at a tick are changes of the tick. -/
theorem mem_changesAt {s : Signal} {t : Nat} {record : ScanRef}
    (h : record ∈ w.changesAt recs t s) :
    ∃ v, record = .change s t v := by
  unfold Waveform.changesAt at h
  rcases List.mem_append.1 h with h | h
  · split at h
    · cases h
    · obtain ⟨v, -, rfl⟩ := List.mem_map.1 h
      exact ⟨v, rfl⟩
  · split at h
    · exact ⟨_, List.mem_singleton.1 h⟩
    · cases h

/-- The changes of an entry at a tick of a window. -/
theorem changesOf_published (hsorted : Chronological recs) {i : Nat} {s : Signal}
    (hi : signals[i]? = some s) (hvalid : w.Valid s) {t : Nat} (hstart : start ≤ t)
    (hstop : t ≤ stop) :
    changesOf i t ((published (upTo stop recs) (some start)).flatMap fun t =>
      signals.zipIdx.flatMap fun entry => (w.changesAt recs t entry.1).map fun record =>
        (entry.2, record)) = w.changesAt recs t s := by
  have hblock : ∀ τ, (w.changesAt recs τ s).filter (fun record => record.time? == some t) =
      if τ = t then w.changesAt recs τ s else [] := by
    intro τ
    split
    · next hτ =>
      refine List.filter_eq_self.2 fun record hrecord => ?_
      obtain ⟨v, rfl⟩ := mem_changesAt hrecord
      simp [ScanRef.time?, hτ]
    · next hτ =>
      refine List.filter_eq_nil_iff.2 fun record hrecord => ?_
      obtain ⟨v, rfl⟩ := mem_changesAt hrecord
      simp [ScanRef.time?, hτ]
  have hnodup : (published (upTo stop recs) (some start)).Nodup :=
    (published_increasing (upTo_chronological hsorted stop) _).imp Nat.ne_of_lt
  unfold changesOf
  rw [recordsOf_flatMap, List.flatMap_congr fun τ _ => recordsOf_zipIdx hi (w.changesAt recs τ),
    List.filter_flatMap, List.flatMap_congr fun τ _ => hblock τ, flatMap_single hnodup]
  split
  · rfl
  · next hnot =>
    refine (changesAt_unrecorded hvalid fun r hr htime => hnot (mem_published.2 ?_)).symm
    exact ⟨⟨r, (mem_upTo hsorted).2 ⟨hr, htime ▸ hstop⟩, htime⟩,
      fun s hs => by cases hs; exact hstart⟩

variable (start stop) in
/-- The emissions of a window keep the promises of a scan. -/
theorem emissions_emits (hsorted : Chronological recs) (htyped : Typed w recs)
    (hsignals : ∀ s ∈ signals, w.Valid s) : ∃ first later,
    w.emissions recs signals start stop = first ++ later ∧
      Emits w recs signals start stop first later := by
  refine ⟨_, _, rfl, ?_⟩
  have hentries : ∀ {i s}, signals[i]? = some s → w.Valid s := fun hi =>
    hsignals _ (List.mem_of_getElem? hi)
  have hmem : ∀ {t} {r : Nat × ScanRef}, (r ∈ signals.zipIdx.flatMap fun entry =>
      (w.changesAt recs t entry.1).map fun record => (entry.2, record)) →
      ∃ s v, signals[r.1]? = some s ∧ r.2 = .change s t v := by
    intro t r hr
    obtain ⟨⟨s, i⟩, hentry, hr⟩ := List.mem_flatMap.1 hr
    obtain ⟨record, hrecord, rfl⟩ := List.mem_map.1 hr
    obtain ⟨v, rfl⟩ := mem_changesAt hrecord
    exact ⟨s, v, List.mk_mem_zipIdx_iff_getElem?.1 hentry, rfl⟩
  refine ⟨?_, ?_, fun r hr => ?_, fun i s t hi hpersistent hstart hstop => ?_,
    fun i s t hi hevent hstart hstop => ?_⟩
  · refine List.filterMap_congr fun entry _ => ?_
    rw [Waveform.initialAt, Option.map_map]
    rfl
  · have htime : ∀ {τ t} {r : Nat × ScanRef}, (r ∈ signals.zipIdx.flatMap fun entry =>
        (w.changesAt recs τ entry.1).map fun record => (entry.2, record)) →
        r.2.time? = some t → t = τ := fun hr ht => by
      obtain ⟨s, v, -, heq⟩ := hmem hr
      rw [heq] at ht
      exact (Option.some.inj ht).symm
    refine List.pairwise_flatMap.2 ⟨fun τ _ => ?_, ?_⟩
    · exact List.pairwise_of_forall_mem_list fun a ha b hb t t' hat hbt => by
        rw [htime ha hat, htime hb hbt]
    · refine (published_increasing (upTo_chronological hsorted stop) _).imp fun hlt a ha b hb t t'
        hat hbt => ?_
      rw [htime ha hat, htime hb hbt]
      exact hlt.le
  · obtain ⟨t, ht, hr⟩ := List.mem_flatMap.1 hr
    obtain ⟨s, v, hs, heq⟩ := hmem hr
    obtain ⟨⟨r', hr', htime⟩, hstart⟩ := mem_published.1 ht
    exact ⟨s, t, v, hs, heq, hstart start rfl, htime ▸ upTo_le r' hr'⟩
  · rw [changesOf_published hsorted hi (hentries hi) hstart hstop,
      changesAt_persistent htyped (hentries hi) hpersistent]
    cases hv : w.valueAt recs s t with
    | none => split <;> rfl
    | some v =>
      have howned := Waveform.valueAt_owned htyped (hentries hi) hv
      cases hu : w.enteringAt recs s t with
      | none => rfl
      | some u =>
        have howned' := Waveform.enteringAt_owned htyped (hentries hi) hu
        simp only [Option.some.injEq, Option.any_some, Value.sameValue_owned howned' howned,
          decide_eq_true_eq, eq_comm (a := v)]
        rfl
  · rw [changesOf_published hsorted hi (hentries hi) hstart hstop,
      changesAt_event htyped (hentries hi) hevent]

/-- A scan has no window when its range is empty or its selection is. -/
theorem idleScan_of_empty {sel : Selection} {range : TimeRange}
    (h : range.isEmpty = true ∨ sel.signals = []) : sel.idleScan range = true := by
  unfold Selection.idleScan
  rcases h with h | h <;> simp [h]

/-- A scan has a window when its range and its selection are not empty. -/
theorem idleScan_of_nonempty {sel : Selection} {range : TimeRange} (hrange : range.isEmpty = false)
    (hsignals : sel.signals ≠ []) (hstart : range.start ≤ u64Max) : sel.idleScan range = false := by
  have hstop : ¬ sel.waveform.scanEnd range < range.start := by
    unfold Waveform.scanEnd
    unfold TimeRange.isEmpty at hrange
    cases hstop : range.stop with
    | some stop =>
      rw [hstop] at hrange
      simpa using hrange
    | none => cases sel.waveform.timeSpan <;> simp [hstart]
  unfold Selection.idleScan
  simp [hrange, hstop, hsignals]

end

section
variable {σ B : Type} {sizes : Sizes} {src : Source} {w : Waveform} {signals : List Signal}
  {sel : Selection} {whole : List Record} {stored : Position → List Record → Prop} {c : σ}

/-- A visitor of scan records that always goes on. -/
def alwaysContinue (next : σ → Nat × ScanRef → σ) : ScanVisitor σ B :=
  fun c record => (next c record, .continue)

/-- **The emissions of a scan.** A scan whose visitor always goes on completes when no event count
overflows. One that completes has handed its visitor the entering states, then the changes of the
window, and nothing for an empty range or an empty selection. -/
theorem scanEach_emits (hreached : sel.Reached sizes src w signals)
    (hreads : src.Reads w sel.plan whole stored) (range : TimeRange)
    (next : σ → Nat × ScanRef → σ) :
    (Counted whole →
      (sel.scanEach sizes src range (alwaysContinue (B := B) next) c).2.2 = .ok .continue) ∧
    ((sel.scanEach sizes src range (alwaysContinue (B := B) next) c).2.2 = .ok .continue →
      ∃ first later, (sel.scanEach sizes src range (alwaysContinue (B := B) next) c).2.1 =
          (first ++ later).foldl next c ∧
        (range.isEmpty = true ∨ signals = [] → first ++ later = []) ∧
        (range.isEmpty = false → signals ≠ [] → range.start ≤ u64Max →
          Emits w whole signals range.start (w.scanEnd range) first later)) := by
  have hsound := hreached.sound hreads.tries
  have hwaveform := hreached.waveform_eq
  have hsignals := hreached.signals_eq
  subst hwaveform hsignals
  have hgoes : ∀ records : List (Nat × ScanRef), visit (alwaysContinue (B := B) next) c records =
      (records.foldl next c, .continue) := fun records => visit_continue next c records
  constructor
  · intro hcounted
    obtain ⟨sel', hscan, -⟩ := scanEach_served ⟨hreads, hcounted⟩ hsound
      (hgoes (sel.emissions whole range))
    rw [hscan]
  · intro hok
    rcases hscan : sel.scanEach sizes src range (alwaysContinue (B := B) next) c with
      ⟨sel', c', outcome⟩
    rw [hscan] at hok
    dsimp only at hok
    subst hok
    have hvisit := scanEach_completed hreads.tries hsound hscan
    rw [hgoes] at hvisit
    cases hvisit
    unfold Selection.emissions
    by_cases hidle : sel.idleScan range = true
    · rw [if_pos hidle]
      refine ⟨[], [], rfl, fun _ => rfl, fun hrange hsignals hstart => ?_⟩
      rw [idleScan_of_nonempty hrange hsignals hstart] at hidle
      cases hidle
    · rw [if_neg hidle]
      obtain ⟨first, later, heq, hemits⟩ := emissions_emits range.start
        (sel.waveform.scanEnd range) hreads.chronological hreads.typed hsound.plans.valid_signals
      exact ⟨first, later, by rw [heq], fun hempty => absurd (idleScan_of_empty hempty) hidle,
        fun _ _ _ => hemits⟩

/-- The scan of the bus from tick 3 on. -/
theorem scanEach_emits_bus : ∃ first later,
    (busSelection.scanEach ⟨0, 0⟩ busSource ⟨3, none⟩
      (alwaysContinue (B := Unit) fun log record => log ++ [record]) []).2.1 =
        (first ++ later).foldl (fun log record => log ++ [record]) [] ∧
    Emits busWaveform busRecords [bus, busLow, strobe, bus] 3 5 first later := by
  obtain ⟨hcompletes, hemits⟩ := scanEach_emits (B := Unit) (c := []) (busSelection_reached ⟨0, 0⟩)
    busSource_serves.toReads ⟨3, none⟩ (fun log record => log ++ [record])
  obtain ⟨first, later, hlog, -, h⟩ := hemits (hcompletes busSource_serves.counts)
  exact ⟨first, later, hlog, h rfl (by decide) (by decide)⟩

/-! ## One observation for every interface -/

/-- A query visitor with a log of the contexts it was called with. -/
def logged (visitor : QueryVisitor σ B) : QueryVisitor (List QueryContext × σ) B := fun st ctx =>
  ((st.1 ++ [ctx], (visitor st.2 ctx).1), (visitor st.2 ctx).2)

/-- A visitor is called with the first contexts, and with all of them when it goes on. -/
theorem visitContexts_logged (visitor : QueryVisitor σ B) (log : List QueryContext) (c : σ)
    (ctxs : List QueryContext) : ∃ called rest, ctxs = called ++ rest ∧
      (visitContexts (logged visitor) (log, c) ctxs).1.1 = log ++ called ∧
      ((visitContexts (logged visitor) (log, c) ctxs).2 = .ok .continue → rest = []) := by
  induction ctxs generalizing log c with
  | nil => exact ⟨[], [], rfl, (List.append_nil _).symm, fun _ => rfl⟩
  | cons ctx ctxs ih =>
    simp only [visitContexts, logged]
    rcases visitor c ctx with ⟨d, e | _ | b⟩
    · exact ⟨[ctx], ctxs, rfl, rfl, fun h => by cases h⟩
    · obtain ⟨called, rest, hsplit, hlog, hall⟩ := ih (log ++ [ctx]) d
      exact ⟨ctx :: called, rest, by rw [hsplit]; rfl, by rw [hlog]; simp, hall⟩
    · exact ⟨[ctx], ctxs, rfl, rfl, fun h => by cases h⟩

/-- A query of valid drivers calls its visitor with contexts of the stream. -/
theorem query_logged (hserves : src.Serves sel.waveform sel.plan whole stored)
    (hsound : sel.Sound whole stored) {range : TimeRange} {drivers : List Nat}
    {visitor : QueryVisitor σ B} {ctx : QueryContext}
    (h : ctx ∈ (sel.query sizes src range drivers (logged visitor) ([], c)).2.1.1) :
    ctx ∈ sel.contexts whole range drivers := by
  cases hdrivers : validateIndices sel.signals.length drivers with
  | error e =>
    unfold Selection.query at h
    rw [hdrivers] at h
    cases h
  | ok u =>
    obtain ⟨called, rest, hsplit, hlog, -⟩ := visitContexts_logged visitor [] c
      (sel.contexts whole range drivers)
    obtain ⟨sel', hquery, -⟩ := query_served
      (c := ([], c)) hserves hsound hdrivers rfl
    rw [hquery] at h
    dsimp only at h
    rw [hlog] at h
    rw [hsplit]
    exact List.mem_append_left _ h

/-- A context of a query reads the samples of its tick and of the tick before it. -/
theorem context_visits (hserves : src.Serves sel.waveform sel.plan whole stored)
    (hsound : sel.Sound whole stored) {range : TimeRange} {drivers : List Nat} {ctx : QueryContext}
    (h : ctx ∈ sel.contexts whole range drivers) {t : Nat} (ht : t = ctx.time ∨ t + 1 = ctx.time)
    {indices : List Nat} (hindices : ∀ i ∈ indices, i < sel.signals.length)
    (visitor : σ → Nat × Sample → σ × Except Error (ControlFlow B)) :
    ctx.visitSamples t indices visitor c = QueryContext.visitEntries visitor c
      (indices.filterMap fun i => (sel.sampleAt whole t)[i]?.map fun sample => (i, sample)) := by
  have hcontext : ctx.signals = sel.signals := by
    unfold Selection.contexts at h
    split at h
    · cases h
    · obtain ⟨-, -, -, -, -, hsignals, -⟩ := mem_contextsFrom h
      exact hsignals
  have hvalid : validateIndices ctx.signals.length indices = .ok () := by
    unfold validateIndices
    rw [List.find?_eq_none.2 fun i hi => by simpa [hcontext] using hindices i hi]
  unfold QueryContext.visitSamples
  rw [if_neg (by omega), hvalid]
  dsimp only
  congr 1
  refine List.filterMap_congr fun i hi => ?_
  congr 1
  have hsignal := List.getElem?_eq_getElem (hindices i hi)
  rw [Selection.sampleAt, List.getElem?_map, hsignal, Option.map_some]
  rcases ht with rfl | ht
  · exact contexts_sample hserves.chronological hserves.typed hsound h hsignal
  · have hbefore := contexts_sample_before hserves.chronological hsound h (by omega) hsignal
    rwa [show ctx.time - 1 = t by omega] at hbefore

/-- Sampling every covered tick of a trace. -/
theorem samplesAt_covered {trace : Trace} {times : List Nat} {f : Nat → Sample}
    (h : ∀ t ∈ times, trace.sample t = .ok (f t)) :
    trace.samplesAt times = .ok (times.map fun t => (t, f t)) := by
  unfold Trace.samplesAt
  induction times with
  | nil => rfl
  | cons t times ih =>
    rw [List.mapM_cons, h t (by simp), ih fun t' ht' => h t' (List.mem_cons_of_mem _ ht')]
    rfl

/-- **The read interfaces agree.** Samples, rows of samples, samples of traces and what a query
callback reads of its tick or the tick before are the observations the stream gives at the tick. -/
theorem interfaces_agree (hreached : sel.Reached sizes src w signals)
    (hserves : src.Serves w sel.plan whole stored) {t : Nat} (ht : t ≤ u64Max) :
    (sel.samples sizes src t).2 = .ok (signals.map (w.sampleAt whole t)) ∧
    (∀ times, t ∈ times → ∃ rows, (sel.samplesAt sizes src times).2 = .ok rows ∧
      rows.map Prod.fst = times ∧ ∀ row ∈ rows, row.1 = t →
      row.2 = signals.map (w.sampleAt whole t)) ∧
    (∀ range : TimeRange, range.covers t → ∃ traces, (sel.traces sizes src range).2 = .ok traces ∧
      traces.map (fun trace => trace.sample t) = (signals.map (w.sampleAt whole t)).map .ok ∧
      ∀ times, (∀ t' ∈ times, t' ≤ u64Max ∧ range.covers t') →
        traces.map (fun trace => trace.samplesAt times) = signals.map fun signal =>
          .ok (times.map fun t' => (t', w.sampleAt whole t' signal))) ∧
    ∀ (range : TimeRange) (drivers : List Nat) (visitor : QueryVisitor σ B) (ctx : QueryContext),
      ctx ∈ (sel.query sizes src range drivers (logged visitor) ([], c)).2.1.1 →
      t = ctx.time ∨ t + 1 = ctx.time →
      ∀ indices : List Nat, (∀ i ∈ indices, i < signals.length) →
      ∀ (reader : σ → Nat × Sample → σ × Except Error (ControlFlow B)) (d : σ),
        ctx.visitSamples t indices reader d = QueryContext.visitEntries reader d
          (indices.filterMap fun i => (signals.map (w.sampleAt whole t))[i]?.map fun sample =>
            (i, sample)) := by
  have hsound := hreached.sound hserves.toReads.tries
  have hwaveform := hreached.waveform_eq
  have hsignals := hreached.signals_eq
  subst hwaveform hsignals
  refine ⟨?_, fun times _ => ?_, fun range hcovers => ?_, fun range drivers visitor ctx hctx hnear
    indices hindices reader d => ?_⟩
  · obtain ⟨sel', hsamples, -⟩ := samples_served (t := t) hserves hsound
    rw [hsamples]
    rfl
  · obtain ⟨sel', hrows, -⟩ := samplesAt_served hserves hsound
    rw [hrows]
    refine ⟨_, rfl, ?_, fun row hrow hrowtime => ?_⟩
    · rw [List.map_map]
      exact List.map_id' times
    · obtain ⟨t', -, rfl⟩ := List.mem_map.1 hrow
      rw [← hrowtime]
      rfl
  · obtain ⟨sel', htraces, -⟩ := traces_served hserves hsound
    rw [htraces]
    refine ⟨_, rfl, tracesOf_sample ht hserves hsound hcovers, fun times htimes => ?_⟩
    refine List.ext_getElem? fun i => ?_
    rw [List.getElem?_map, List.getElem?_map, Selection.tracesOf, List.getElem?_map]
    cases hs : sel.signals[i]? with
    | none => rfl
    | some s =>
      rw [Option.map_some, Option.map_some, Option.map_some]
      refine congrArg some (samplesAt_covered fun t' ht' => ?_)
      have hall := tracesOf_sample (htimes t' ht').1 hserves hsound (htimes t' ht').2
      have hentry := congrArg (fun entries => entries[i]?) hall
      simp only [Selection.tracesOf, Selection.sampleAt, List.getElem?_map, hs, Option.map_some,
        Option.some.injEq] at hentry
      exact hentry
  · exact context_visits hserves hsound (query_logged hserves hsound hctx) hnear hindices reader

/-- The bus at tick 5: in one sample, in a trace from tick 3 to 6, and, for the strobe and the low
bit, in the context that a query over the changes of the bus gets at that tick. -/
theorem interfaces_agree_bus :
    let now : List Sample := [.value bus (.bits (ascii "11")) (some 5),
      .value busLow (.bits (ascii "1")) none, .event strobe 2,
      .value bus (.bits (ascii "11")) (some 5)]
    let visitor : QueryVisitor (List (Nat × Sample)) Unit := fun c _ => (c, .ok .continue)
    let keep (seen : List (Nat × Sample)) (entry : Nat × Sample) :
        List (Nat × Sample) × Except Error (ControlFlow Unit) := (seen ++ [entry], .ok .continue)
    (busSelection.samples ⟨0, 0⟩ busSource 5).2 = .ok now ∧
      (∃ traces, (busSelection.traces ⟨0, 0⟩ busSource ⟨3, some 6⟩).2 = .ok traces ∧
        traces.map (fun trace => trace.sample 5) = now.map .ok) ∧
      ∃ ctx ∈ (busSelection.query ⟨0, 0⟩ busSource ⟨0, none⟩ [0] (logged visitor) ([], [])).2.1.1,
        ctx.time = 5 ∧ ctx.visitSamples 5 [2, 1] keep [] =
          ([(2, .event strobe 2), (1, .value busLow (.bits (ascii "1")) none)], .ok .continue) := by
  intro now visitor keep
  have hnow : [bus, busLow, strobe, bus].map (busWaveform.sampleAt busRecords 5) = now := by
    decide +kernel
  obtain ⟨hsamples, -, htraces, hcontexts⟩ := interfaces_agree (c := ([] : List (Nat × Sample)))
    (B := Unit) (busSelection_reached ⟨0, 0⟩) busSource_serves (t := 5) (by decide)
  rw [hnow] at hsamples htraces hcontexts
  obtain ⟨traces, hread, hsampled, -⟩ := htraces ⟨3, some 6⟩ (by simp [TimeRange.covers])
  have htimes : 5 ∈ (busSelection.query ⟨0, 0⟩ busSource ⟨0, none⟩ [0] (logged visitor)
      ([], [])).2.1.1.map QueryContext.time := by decide +kernel
  obtain ⟨ctx, hctx, htime⟩ := List.mem_map.1 htimes
  refine ⟨hsamples, ⟨traces, hread, hsampled⟩, ctx, hctx, htime, ?_⟩
  exact hcontexts ⟨0, none⟩ [0] visitor ctx hctx (.inl htime.symm) [2, 1] (by decide) keep []

end
end Ondas.Query
