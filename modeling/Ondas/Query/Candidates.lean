import Ondas.Fst.Reader
import Ondas.Query.Contract

/-!
# Candidate ticks

Queries and candidate times visit a superset of the ticks that change: in order, each once, inside
the range. A driver of a query is a candidate when its slot is busy, which a change makes it.
Candidate times are the ticks of a scan, or for an FST reader the ticks of the library's callbacks.
-/

namespace Ondas.Query

open Library
open Vcd (Position)

/-! ## Candidate times -/

/-- The callback of `scan_candidate_times` over a scan: the ticks of the changes, each once. -/
def candidateVisitor {σ B : Type} (visitor : σ → Nat → σ × ControlFlow B) :
    ScanVisitor (Option Nat × σ) B := fun (last, c) record =>
  match record.2 with
  | .initial .. => ((last, c), .continue)
  | .change _ time _ =>
    if last = some time then ((last, c), .continue)
    else
      match visitor c time with
      | (c, flow) => ((some time, c), flow)

/-- `Selection::scan_candidate_times`, over the FST reader or a scan. -/
def Selection.scanCandidateTimes {σ B : Type} (sizes : Sizes) (src : Source)
    (fst : Option Fst.Reader) (sel : Selection) (range : TimeRange)
    (visitor : σ → Nat → σ × ControlFlow B) (c : σ) :
    Selection × σ × Except Error (ControlFlow B) :=
  match fst with
  | some reader =>
    let (c, outcome) := reader.readCandidateTimes sel.plan.bases range.start
      (sel.waveform.queryEnd range) visitor c
    (sel, c, outcome)
  | none =>
    match sel.scanEach sizes src range (candidateVisitor visitor) (none, c) with
    | (sel, (_, c), outcome) => (sel, c, outcome)

/-- The ticks of the changes of a scan. -/
def changeTicks (records : List (Nat × ScanRef)) : List Nat :=
  records.filterMap fun record => record.2.time?

section
variable {σ B : Type}

/-- Candidate times over a scan visit the ticks of its changes, each once. -/
theorem visit_candidateVisitor (visitor : σ → Nat → σ × ControlFlow B) (last : Option Nat) (c : σ)
    (records : List (Nat × ScanRef)) :
    ∃ last', visit (candidateVisitor visitor) (last, c) records =
      ((last', (visit visitor c (following last (changeTicks records))).1),
        (visit visitor c (following last (changeTicks records))).2) := by
  induction records generalizing last c with
  | nil => cases last <;> exact ⟨_, rfl⟩
  | cons record records ih =>
    obtain ⟨i, record⟩ := record
    cases record with
    | initial s v changedAt => exact ih last c
    | change s t v =>
      have hticks : changeTicks ((i, .change s t v) :: records) = t :: changeTicks records := rfl
      rw [hticks]
      by_cases hlast : last = some t
      · subst hlast
        have hstep : candidateVisitor visitor (some t, c) (i, .change s t v) =
            ((some t, c), .continue) := if_pos rfl
        rw [visit, hstep, following_same]
        exact ih (some t) c
      · have hstep : candidateVisitor visitor (last, c) (i, .change s t v) =
            ((some t, (visitor c t).1), (visitor c t).2) := if_neg hlast
        rw [following_new hlast, visit, visit, hstep]
        rcases visitor c t with ⟨d, _ | b⟩
        · exact ih (some t) d
        · exact ⟨_, rfl⟩

end

/-! ## Supersets of the changes -/

/-- Visited ticks are an ordered superset of some changed ticks, inside a range. -/
structure Supersedes (range : TimeRange) (ticks : List Nat) (changed : Nat → Prop) : Prop where
  increasing : ticks.Pairwise (· < ·)
  inside : ∀ t ∈ ticks, range.covers t
  contains : ∀ t, changed t → t ∈ ticks

/-- A completed scan changes an entry among `drivers` at a tick. -/
def Selection.Changes (sizes : Sizes) (src : Source) (sel : Selection) (range : TimeRange)
    (drivers : List Nat) (t : Nat) : Prop :=
  ∃ sel' log, sel.scanEach (B := Unit) sizes src range
      (alwaysContinue fun log record => log ++ [record]) [] = (sel', log, .ok .continue) ∧
    ∃ i ∈ drivers, ∃ s v, (i, .change s t v) ∈ log

section
variable {w : Waveform} {recs : List Record}

/-- A handle that a scan changes at a tick has a busy slot there. -/
theorem busy_of_change {s : Signal} (htyped : Typed w recs) (hvalid : w.Valid s) {t : Nat}
    (h : w.changesAt recs t s ≠ []) : (w.viewSlot recs t s).busy = true := by
  unfold Waveform.changesAt at h
  have hpending : (w.viewSlot recs t s).pending = w.pendingAt recs t s := rfl
  have hevents : (w.viewSlot recs t s).events = countAt recs s t := rfl
  unfold Slot.busy
  rw [hpending, hevents]
  by_cases hcount : 0 < countAt recs s t
  · simp [hcount]
  · rw [if_neg hcount, List.append_nil] at h
    split at h
    · exact absurd rfl h
    · next hne =>
      have hwritten : w.writtenAt recs s t = true := by
        by_contra hnot
        exact hne (Waveform.valueAt_quiet hvalid (by simpa using hnot))
      obtain ⟨v, hv⟩ := Waveform.valueAt_written htyped hvalid hwritten
      have hpendingAt : w.pendingAt recs t s = some v := by
        unfold Waveform.pendingAt
        rw [if_pos hwritten, hv]
      simp [hpendingAt]

/-- A touched slot depends on a source slot that is written. -/
theorem Computes.touched_source {slots : List Signal} {computations : List Computation}
    (h : Computes w slots computations) {written : Nat → Bool} (hvalid : ∀ s ∈ slots, w.Valid s) :
    ∀ s ∈ slots, w.touched written s = true →
      ∃ s' ∈ slots, s'.computed = false ∧ written s'.index = true := by
  induction h with
  | nil => nofun
  | source _ hc ih =>
    intro s hs htouched
    rcases List.mem_append.1 hs with hs | hs
    · obtain ⟨s', hs', hsource⟩ :=
        ih (fun s hs => hvalid s (List.mem_append_left _ hs)) s hs htouched
      exact ⟨s', List.mem_append_left _ hs', hsource⟩
    · rw [List.mem_singleton] at hs
      subst hs
      rw [Waveform.touched_source hc] at htouched
      exact ⟨s, by simp, hc, htouched⟩
  | @slice slots _ signal input _ hc _ hinput ih =>
    intro s hs htouched
    have hslots : ∀ s ∈ slots, w.Valid s := fun s hs => hvalid s (List.mem_append_left _ hs)
    rcases List.mem_append.1 hs with hs | hs
    · obtain ⟨s', hs', hsource⟩ := ih hslots s hs htouched
      exact ⟨s', List.mem_append_left _ hs', hsource⟩
    · rw [List.mem_singleton] at hs
      subst hs
      have hbase := List.mem_of_getElem? hinput
      have hsame : w.touched written s.base = w.touched written s := by
        rw [Waveform.touched_computed hc ((hvalid s (by simp)).index_lt hc),
          Waveform.touched_computed (show s.base.computed = true from hc)
            ((hslots _ hbase).index_lt hc)]
        rfl
      obtain ⟨s', hs', hsource⟩ := ih hslots _ hbase (hsame.trans htouched)
      exact ⟨s', List.mem_append_left _ hs', hsource⟩
  | @concat slots _ signal inputs width _ hc _ hparts ih =>
    intro s hs htouched
    have hslots : ∀ s ∈ slots, w.Valid s := fun s hs => hvalid s (List.mem_append_left _ hs)
    rcases List.mem_append.1 hs with hs | hs
    · obtain ⟨s', hs', hsource⟩ := ih hslots s hs htouched
      exact ⟨s', List.mem_append_left _ hs', hsource⟩
    · rw [List.mem_singleton] at hs
      subst hs
      rw [Waveform.touched_computed hc ((hvalid s (by simp)).index_lt hc),
        List.any_eq_true] at htouched
      obtain ⟨part, hpart, htouched⟩ := htouched
      obtain ⟨n, hn, rfl⟩ := List.getElem_of_mem hpart
      obtain ⟨hslot, -⟩ := hparts.get hn (hparts.length_eq ▸ hn)
      obtain ⟨s', hs', hsource⟩ := ih hslots _ (List.mem_of_getElem? hslot) htouched
      exact ⟨s', List.mem_append_left _ hs', hsource⟩

/-- A handle of a selection that a scan changes needs a source history. -/
theorem bases_of_change {signals : List Signal} {plan : Plan} (hplans : plan.Plans w signals)
    {s : Signal} (hs : s ∈ signals) {t : Nat} (h : w.changesAt recs t s ≠ []) :
    plan.bases ≠ [] := by
  obtain ⟨i, hi⟩ := List.getElem?_of_mem hs
  obtain ⟨slot, -, hslot⟩ := hplans.slot hi
  have hretained := List.mem_of_getElem? hslot
  have hvalid := hplans.valid s hretained
  have hsource : ∃ s' ∈ plan.retained, s'.computed = false := by
    cases hc : s.computed with
    | false => exact ⟨s, hretained, hc⟩
    | true =>
      have hwritten : w.writtenAt recs s t = true := by
        by_contra hnot
        refine h ?_
        unfold Waveform.changesAt countAt
        rw [if_pos (Waveform.valueAt_quiet hvalid (by simpa using hnot)), hc, if_pos rfl]
        rfl
      obtain ⟨s', hs', hsource, -⟩ :=
        hplans.computes.touched_source hplans.valid s hretained hwritten
      exact ⟨s', hs', hsource⟩
  obtain ⟨s', hs', hc⟩ := hsource
  obtain ⟨slot', hslot'⟩ := List.getElem?_of_mem hs'
  have hentry := (hplans.entries s'.index slot').2 ⟨s', hslot', hc, rfl⟩
  have hgroup : (plan.groups s'.index).isSome = true := by
    unfold Plan.entries at hentry
    cases hgroups : plan.groups s'.index with
    | none => rw [hgroups] at hentry; cases hentry
    | some slots => rfl
  obtain ⟨base, hbase, -⟩ := List.mem_map.1 ((hplans.bases _).1 hgroup)
  exact List.ne_nil_of_mem hbase

end

section
variable {σ B : Type} {sizes : Sizes} {src : Source} {w : Waveform} {signals : List Signal}
  {sel : Selection} {whole : List Record} {stored : Position → List Record → Prop}
  {range : TimeRange} {drivers : List Nat} {t : Nat} {c : σ}

/-- Where a scan changes an entry, the stream changes its handle. -/
theorem Selection.Changes.spec (hreads : src.Reads sel.waveform sel.plan whole stored)
    (hsound : sel.Sound whole stored) (h : sel.Changes sizes src range drivers t) :
    sel.idleScan range = false ∧
      t ∈ published (upTo (sel.waveform.scanEnd range) whole) (some range.start) ∧
      ∃ i ∈ drivers, ∃ s, sel.signals[i]? = some s ∧ sel.waveform.changesAt whole t s ≠ [] := by
  obtain ⟨sel', log, hscan, i, hi, s, v, hmem⟩ := h
  have hvisit := scanEach_completed hreads.tries hsound hscan
  have hgoes := visit_continue (B := Unit) (fun log record => log ++ [record]) []
    (sel.emissions whole range)
  have hpush : ∀ (log : List (Nat × ScanRef)) records,
      records.foldl (fun log record => log ++ [record]) log = log ++ records := by
    intro log records
    induction records generalizing log with
    | nil => simp
    | cons record records ih => rw [List.foldl_cons, ih]; simp
  rw [hpush, List.nil_append] at hgoes
  have hlog : log = sel.emissions whole range := by
    have heq := hvisit.symm.trans hgoes
    injection heq
  subst hlog
  unfold Selection.emissions at hmem
  cases hidle : sel.idleScan range with
  | true => rw [if_pos hidle] at hmem; cases hmem
  | false =>
    rw [hidle, if_neg Bool.false_ne_true, Waveform.emissions] at hmem
    refine ⟨rfl, ?_⟩
    rcases List.mem_append.1 hmem with hmem | hmem
    · obtain ⟨entry, -, heq⟩ := List.mem_filterMap.1 hmem
      obtain ⟨record, hrecord, heq⟩ := Option.map_eq_some_iff.1 heq
      unfold Waveform.initialAt at hrecord
      obtain ⟨state, -, rfl⟩ := Option.map_eq_some_iff.1 hrecord
      cases heq
    · obtain ⟨t', ht', hmem⟩ := List.mem_flatMap.1 hmem
      obtain ⟨⟨s', i'⟩, hentry, hmem⟩ := List.mem_flatMap.1 hmem
      obtain ⟨record, hrecord, heq⟩ := List.mem_map.1 hmem
      cases heq
      obtain ⟨v', heq⟩ := mem_changesAt hrecord
      cases heq
      exact ⟨ht', _, hi, _, List.mk_mem_zipIdx_iff_getElem?.1 hentry, List.ne_nil_of_mem hrecord⟩

/-- A change of a scan is in the window of a query. -/
theorem change_in_query (hreads : src.Reads sel.waveform sel.plan whole stored)
    (h : t ∈ published (upTo (sel.waveform.scanEnd range) whole) (some range.start)) :
    range.start ≤ t ∧ t ≤ sel.waveform.queryEnd range ∧ ∃ r ∈ whole, r.time = t := by
  obtain ⟨⟨r, hr, rfl⟩, hstart⟩ := mem_published.1 h
  obtain ⟨hrwhole, hstop⟩ := (mem_upTo hreads.chronological).1 hr
  refine ⟨hstart _ rfl, ?_, r, hrwhole, rfl⟩
  unfold Waveform.queryEnd
  unfold Waveform.scanEnd at hstop
  cases hend : range.stop with
  | some stop =>
    rw [hend] at hstop
    exact hstop
  | none => exact hreads.span r hrwhole

/-- A completed query visits a superset of the changes of its drivers. -/
theorem query_supersedes (hreads : src.Reads sel.waveform sel.plan whole stored)
    (hsound : sel.Sound whole stored) {visitor : QueryVisitor σ B} {sel' : Selection}
    {log : List QueryContext} {c' : σ}
    (h : sel.query sizes src range drivers (logged visitor) ([], c) =
      (sel', (log, c'), .ok .continue))
    {changed : Nat → Prop}
    (hchanged : ∀ t, changed t → sel.idleScan range = false ∧
      t ∈ published (upTo (sel.waveform.scanEnd range) whole) (some range.start) ∧
      ∃ i ∈ drivers, ∃ s, sel.signals[i]? = some s ∧ sel.waveform.changesAt whole t s ≠ []) :
    Supersedes range (log.map QueryContext.time) changed := by
  have hvisit := query_completed hreads.tries hsound h
  obtain ⟨called, rest, hsplit, hlog, hall⟩ := visitContexts_logged visitor [] c
    (sel.contexts whole range drivers)
  rw [hvisit] at hlog hall
  have hrest := hall rfl
  subst hrest
  rw [List.append_nil] at hsplit
  rw [List.nil_append] at hlog
  dsimp only at hlog
  rw [hlog, ← hsplit]
  have hticks : (sel.queryTicks whole range).Pairwise (· < ·) :=
    published_increasing (upTo_chronological hreads.chronological _) _
  unfold Selection.contexts
  cases hidle : sel.idleQuery range drivers with
  | true =>
    rw [if_pos rfl]
    refine ⟨.nil, nofun, fun t ht => ?_⟩
    obtain ⟨hscan, hpublished, i, hi, -⟩ := hchanged t ht
    obtain ⟨hstart, hstop, -⟩ := change_in_query hreads hpublished
    unfold Selection.idleScan at hscan
    unfold Selection.idleQuery at hidle
    simp only [Bool.or_eq_false_iff] at hscan
    simp only [Bool.or_eq_true, decide_eq_true_eq, hscan.1.1, Bool.false_eq_true, or_false] at hidle
    rcases hidle with hnil | hlt
    · rw [List.isEmpty_iff.1 hnil] at hi
      cases hi
    · omega
  | false =>
    rw [if_neg Bool.false_ne_true, contextsFrom_times]
    refine ⟨hticks.sublist List.filter_sublist, fun t ht => ?_, fun t ht => ?_⟩
    · obtain ⟨hmem, hcond⟩ := List.mem_filter.1 ht
      simp only [Bool.and_eq_true, decide_eq_true_eq] at hcond
      refine ⟨hcond.1, fun stop hstop => ?_⟩
      obtain ⟨⟨r, hr, rfl⟩, -⟩ := mem_published.1 hmem
      have hle := upTo_le r hr
      unfold Waveform.queryEnd at hle
      rw [hstop] at hle
      exact hle
    · obtain ⟨-, hpublished, i, hi, s, hs, hne⟩ := hchanged t ht
      obtain ⟨hstart, hstop, r, hr, rfl⟩ := change_in_query hreads hpublished
      refine List.mem_filter.2 ⟨mem_published.2
        ⟨⟨r, (mem_upTo hreads.chronological).2 ⟨hr, hstop⟩, rfl⟩,
        fun s hs => ?_⟩, ?_⟩
      · split at hs
        · cases hs
        · cases hs
          omega
      · obtain ⟨slot, hslot, hretained⟩ := hsound.plans.slot hs
        have hbusy :=
          busy_of_change hreads.typed (hsound.plans.valid s (List.mem_of_getElem? hretained))
          hne
        have hview := slotAt_mapped (f := sel.waveform.viewSlot whole r.time) hretained
        have hindex : sel.plan.indices.getD i 0 = slot := by
          rw [List.getD_eq_getElem?_getD, hslot, Option.getD_some]
        simp only [Bool.and_eq_true, decide_eq_true_eq, Selection.candidate, List.any_eq_true]
        exact ⟨hstart, i, hi, by rw [hindex, Selection.slotsAt, hview, hbusy]⟩

/-- A tick visitor with a log of the ticks it was called with. -/
def loggedTicks (visitor : σ → Nat → σ × ControlFlow B) (st : List Nat × σ) (t : Nat) :
    (List Nat × σ) × ControlFlow B :=
  ((st.1 ++ [t], (visitor st.2 t).1), (visitor st.2 t).2)

/-- A visit that goes through has seen every tick. -/
theorem visit_loggedTicks {visitor : σ → Nat → σ × ControlFlow B} {log log' : List Nat} {c c' : σ}
    {ticks : List Nat} (h : visit (loggedTicks visitor) (log, c) ticks = ((log', c'), .continue)) :
    log' = log ++ ticks := by
  induction ticks generalizing log c with
  | nil => cases h; simp
  | cons t ticks ih =>
    have hstep : loggedTicks visitor (log, c) t =
        ((log ++ [t], (visitor c t).1), (visitor c t).2) := rfl
    rw [visit, hstep] at h
    rcases hvisit : visitor c t with ⟨d, _ | b⟩ <;> rw [hvisit] at h
    · rw [ih h]
      simp
    · cases h

/-- What the FST reader library promises of a window: its callbacks do not go back in time, and
there is one at every recorded tick. -/
structure FstCovers (reader : Fst.Reader) (bases : List Signal) (start stop : Nat)
    (whole : List Record) : Prop where
  ordered : (((reader.readSignals ⟨start, stop,
    bases.map fun signal => reader.handles.getD signal.index 0⟩).1).map Fst.Callback.time).Pairwise
      (· ≤ ·)
  recorded : ∀ r ∈ whole, start ≤ r.time → r.time ≤ stop →
    ∃ call ∈ (reader.readSignals ⟨start, stop,
      bases.map fun signal => reader.handles.getD signal.index 0⟩).1, call.time = r.time

/-- The ticks of the changes of a scan are a superset of the changed ticks. -/
theorem emissions_supersede (hreads : src.Reads sel.waveform sel.plan whole stored)
    (hsound : sel.Sound whole stored) {changed : Nat → Prop}
    (hchanged : ∀ t, changed t → sel.idleScan range = false ∧
      t ∈ published (upTo (sel.waveform.scanEnd range) whole) (some range.start) ∧
      ∃ (i : Nat) (s : Signal), sel.signals[i]? = some s ∧ sel.waveform.changesAt whole t s ≠ []) :
    Supersedes range ((changeTicks (sel.emissions whole range)).destutter (· ≠ ·)) changed := by
  unfold Selection.emissions
  cases hidle : sel.idleScan range with
  | true =>
    rw [if_pos rfl]
    refine ⟨.nil, nofun, fun t ht => ?_⟩
    rw [(hchanged t ht).1] at hidle
    cases hidle
  | false =>
    rw [if_neg Bool.false_ne_true]
    obtain ⟨first, later, hsplit, hemits⟩ := emissions_emits range.start
      (sel.waveform.scanEnd range) hreads.chronological hreads.typed hsound.plans.valid_signals
    have hfirst : changeTicks first = [] := by
      refine List.filterMap_eq_nil_iff.2 fun record hrecord => ?_
      rw [hemits.first] at hrecord
      obtain ⟨entry, -, heq⟩ := List.mem_filterMap.1 hrecord
      obtain ⟨state, -, rfl⟩ := Option.map_eq_some_iff.1 heq
      rfl
    have hticks : changeTicks (sel.waveform.emissions whole sel.signals range.start
        (sel.waveform.scanEnd range)) = changeTicks later := by
      rw [hsplit, changeTicks, List.filterMap_append, ← changeTicks, hfirst, List.nil_append]
      rfl
    rw [hticks]
    have hordered : (changeTicks later).Pairwise (· ≤ ·) :=
      hemits.ordered.filterMap _ fun a b hab t ht t' ht' => hab t t' ht ht'
    refine ⟨destutter_increasing hordered, fun t ht => ?_, fun t ht => ?_⟩
    · obtain ⟨record, hrecord, htime⟩ := List.mem_filterMap.1 ((mem_destutter hordered).1 ht)
      obtain ⟨s, t', v, -, heq, hstart, hstop⟩ := hemits.inside record hrecord
      rw [heq] at htime
      cases htime
      refine ⟨hstart, fun stop hend => ?_⟩
      unfold Waveform.scanEnd at hstop
      rw [hend] at hstop
      exact hstop
    · obtain ⟨-, hpublished, i, s, hs, hne⟩ := hchanged t ht
      obtain ⟨record, hrecord⟩ := List.exists_mem_of_ne_nil _ hne
      obtain ⟨v, rfl⟩ := mem_changesAt hrecord
      refine (mem_destutter hordered).2 ?_
      rw [← hticks]
      refine List.mem_filterMap.2 ⟨(i, .change s t v), List.mem_append_right _ ?_, rfl⟩
      refine List.mem_flatMap.2 ⟨t, hpublished, List.mem_flatMap.2 ⟨(s, i),
        List.mk_mem_zipIdx_iff_getElem?.2 hs, List.mem_map.2 ⟨_, hrecord, rfl⟩⟩⟩

/-- Completed candidate times are a superset of the changes. -/
theorem scanCandidateTimes_supersedes (hreads : src.Reads sel.waveform sel.plan whole stored)
    (hsound : sel.Sound whole stored) {fst : Option Fst.Reader}
    (hfst : ∀ reader, fst = some reader → FstCovers reader sel.plan.bases range.start
      (sel.waveform.queryEnd range) whole)
    {visitor : σ → Nat → σ × ControlFlow B} {sel' : Selection} {log : List Nat} {c' : σ}
    (h : sel.scanCandidateTimes sizes src fst range (loggedTicks visitor) ([], c) =
      (sel', (log, c'), .ok .continue))
    {changed : Nat → Prop}
    (hchanged : ∀ t, changed t → sel.idleScan range = false ∧
      t ∈ published (upTo (sel.waveform.scanEnd range) whole) (some range.start) ∧
      ∃ (i : Nat) (s : Signal), sel.signals[i]? = some s ∧ sel.waveform.changesAt whole t s ≠ []) :
    Supersedes range log changed := by
  cases fst with
  | some reader =>
    obtain ⟨hordered, hrecorded⟩ := hfst reader rfl
    unfold Selection.scanCandidateTimes at h
    dsimp only at h
    rcases hread : reader.readCandidateTimes sel.plan.bases range.start
      (sel.waveform.queryEnd range)
      (loggedTicks visitor) ([], c) with ⟨⟨log₁, c₁⟩, outcome⟩
    rw [hread] at h
    cases h
    have hlog := visit_loggedTicks (Fst.readCandidateTimes_visits hread)
    rw [List.nil_append] at hlog
    split at hlog
    · next hidle =>
      subst hlog
      refine ⟨.nil, nofun, fun t ht => ?_⟩
      obtain ⟨-, hpublished, i, s, hs, hne⟩ := hchanged t ht
      obtain ⟨hstart, hstop, -⟩ := change_in_query hreads hpublished
      rw [Bool.or_eq_true, decide_eq_true_eq, List.isEmpty_iff] at hidle
      rcases hidle with hnil | hlt
      · exact absurd hnil (bases_of_change hsound.plans (List.mem_of_getElem? hs) hne)
      · omega
    · subst hlog
      have hwindow := hordered.sublist (List.filter_sublist
        (p := fun t => decide (range.start ≤ t) && decide (t ≤ sel.waveform.queryEnd range)))
      refine ⟨destutter_increasing hwindow, fun t ht => ?_, fun t ht => ?_⟩
      · obtain ⟨-, hcond⟩ := List.mem_filter.1 ((mem_destutter hwindow).1 ht)
        simp only [Bool.and_eq_true, decide_eq_true_eq] at hcond
        refine ⟨hcond.1, fun stop hstop => ?_⟩
        have hle := hcond.2
        unfold Waveform.queryEnd at hle
        rw [hstop] at hle
        exact hle
      · obtain ⟨-, hpublished, -⟩ := hchanged t ht
        obtain ⟨hstart, hstop, r, hr, rfl⟩ := change_in_query hreads hpublished
        obtain ⟨call, hcall, htime⟩ := hrecorded r hr hstart hstop
        refine (mem_destutter hwindow).2 (List.mem_filter.2 ⟨?_, by simp [hstart, hstop]⟩)
        exact List.mem_map.2 ⟨call, hcall, htime⟩
  | none =>
    unfold Selection.scanCandidateTimes at h
    dsimp only at h
    rcases hscan : sel.scanEach sizes src range (candidateVisitor (loggedTicks visitor))
      (none, ([], c)) with ⟨sel₁, ⟨last, log₁, c₁⟩, outcome⟩
    rw [hscan] at h
    cases h
    have hvisit := scanEach_completed hreads.tries hsound hscan
    obtain ⟨last', hticks⟩ := visit_candidateVisitor (loggedTicks visitor) none ([], c)
      (sel.emissions whole range)
    rw [hvisit] at hticks
    have hlog : log = following none (changeTicks (sel.emissions whole range)) := by
      have hlogged : visit (loggedTicks visitor) ([], c)
          (following none (changeTicks (sel.emissions whole range))) =
          ((log, c'), (.continue : ControlFlow B)) := by
        injection hticks with hstate hflow
        injection hstate with _ hstate
        rw [Prod.ext_iff]
        exact ⟨hstate.symm, hflow.symm⟩
      exact (visit_loggedTicks hlogged).trans (List.nil_append _)
    subst hlog
    exact emissions_supersede hreads hsound hchanged

/-- The selections of one waveform and signals have one plan. -/
theorem Selection.Reached.plan_eq {other : Selection} (h : sel.Reached sizes src w signals)
    (hother : other.Reached sizes src w signals) : other.plan = sel.plan := by
  have heq := h.fresh.symm.trans hother.fresh
  injection heq with heq
  have hplan := congrArg Selection.plan heq
  exact hplan.symm

/-- **Candidate ticks.** A completed query visits ticks in order, each once and inside its range,
and among them every tick at which a scan of the range changes a driver. Completed candidate times
do so for every entry, over scans, and over the FST reader when the library covers the window. -/
theorem candidates_supersede (hreached : sel.Reached sizes src w signals)
    (hreads : src.Reads w sel.plan whole stored) (range : TimeRange) :
    (∀ (drivers : List Nat) (visitor : QueryVisitor σ B) (c : σ),
      (sel.query sizes src range drivers (logged visitor) ([], c)).2.2 = .ok .continue →
      Supersedes range ((sel.query sizes src range drivers (logged visitor) ([], c)).2.1.1.map
          QueryContext.time)
        fun t => ∃ other : Selection, other.Reached sizes src w signals ∧
          other.Changes sizes src range drivers t) ∧
    ∀ (fst : Option Fst.Reader), (∀ reader, fst = some reader →
        FstCovers reader sel.plan.bases range.start (w.queryEnd range) whole) →
      ∀ (visitor : σ → Nat → σ × ControlFlow B) (c : σ),
      (sel.scanCandidateTimes sizes src fst range (loggedTicks visitor) ([], c)).2.2 =
        .ok .continue →
      Supersedes range (sel.scanCandidateTimes sizes src fst range (loggedTicks visitor)
        ([], c)).2.1.1
        fun t => ∃ other : Selection, other.Reached sizes src w signals ∧
          other.Changes sizes src range (List.range signals.length) t := by
  have hsound := hreached.sound hreads.tries
  have hchanges : ∀ {drivers : List Nat} {t : Nat} {other : Selection},
      other.Reached sizes src w signals → other.Changes sizes src range drivers t →
      sel.idleScan range = false ∧
        t ∈ published (upTo (sel.waveform.scanEnd range) whole) (some range.start) ∧
        ∃ i ∈ drivers, ∃ s, sel.signals[i]? = some s ∧ sel.waveform.changesAt whole t s ≠ [] := by
    intro drivers t other hother h
    have hplan := hreached.plan_eq hother
    have hspec := h.spec
      (by rw [hplan, hother.waveform_eq]; exact hreads) (hother.sound (hplan ▸ hreads.tries))
    unfold Selection.idleScan at hspec ⊢
    rw [hother.waveform_eq, hother.signals_eq] at hspec
    rw [hreached.waveform_eq, hreached.signals_eq]
    exact hspec
  have hwaveform := hreached.waveform_eq
  constructor
  · intro drivers visitor c hok
    rcases hquery : sel.query sizes src range drivers (logged visitor) ([], c) with
      ⟨sel', ⟨log, c'⟩, outcome⟩
    rw [hquery] at hok
    dsimp only at hok
    subst hok
    exact query_supersedes (hwaveform ▸ hreads) hsound hquery fun t ⟨other, hother, h⟩ =>
      hchanges hother h
  · intro fst hfst visitor c hok
    rcases hscan : sel.scanCandidateTimes sizes src fst range (loggedTicks visitor) ([], c) with
      ⟨sel', ⟨log, c'⟩, outcome⟩
    rw [hscan] at hok
    dsimp only at hok
    subst hok
    refine scanCandidateTimes_supersedes (hwaveform ▸ hreads) hsound (hwaveform ▸ hfst) hscan
      fun t ⟨other, hother, h⟩ => ?_
    obtain ⟨hidle, hpublished, i, -, s, hs⟩ := hchanges hother h
    exact ⟨hidle, hpublished, i, s, hs⟩

/-- A library that calls back at the ticks of the bus. -/
def busReader : Fst.Reader where
  readSignals := fun _ => ([⟨2, 0, .string (ascii "01")⟩, ⟨2, 1, .string []⟩,
    ⟨5, 0, .string (ascii "10")⟩, ⟨5, 1, .string []⟩], .ok ())
  handles := [0, 1]
  indices := fun handle => if handle < 2 then some handle else none
  encodings := [.bits 2, .event]

/-- The candidates of the bus from tick 3 on. -/
theorem candidates_supersede_bus :
    Supersedes ⟨3, none⟩ [5] (fun t => ∃ other : Selection,
      other.Reached ⟨0, 0⟩ busSource busWaveform [bus, busLow, strobe, bus] ∧
        other.Changes ⟨0, 0⟩ busSource ⟨3, none⟩ [1, 2] t) ∧
    Supersedes ⟨3, none⟩ [5] (fun t => ∃ other : Selection,
      other.Reached ⟨0, 0⟩ busSource busWaveform [bus, busLow, strobe, bus] ∧
        other.Changes ⟨0, 0⟩ busSource ⟨3, none⟩ [0, 1, 2, 3] t) := by
  have hcovers : FstCovers busReader busSelection.plan.bases 3 (busWaveform.queryEnd ⟨3, none⟩)
      busRecords := by
    refine ⟨by decide +kernel, fun r hr hstart hstop => ?_⟩
    revert r
    decide +kernel
  obtain ⟨hquery, htimes⟩ := candidates_supersede (σ := Unit) (B := Unit)
    (busSelection_reached ⟨0, 0⟩) busSource_serves.toReads ⟨3, none⟩
  exact ⟨hquery [1, 2] (fun c _ => (c, .ok .continue)) () rfl,
    htimes (some busReader) (fun reader h => by cases h; exact hcovers) (fun c _ =>
    (c, .continue)) ()
      rfl⟩

end
end Ondas.Query
