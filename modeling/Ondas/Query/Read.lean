import Ondas.Query.Traversal

/-!
# The read interfaces of a selection

Scans, samples, traces and queries, each over `readTicksFrom`. A visitor is a callback with its own
state, so an operation returns the selection it leaves, the visitor's state and the outcome.

A source loop that hands records to its callback in order, until it breaks, is the list of its
records, visited: `initials`, `changes`, `observe`.
-/

namespace Ondas.Query

open Library

/-! ## Scans -/

/-- A record of a range scan. -/
inductive ScanRef where
  | initial (signal : Signal) (value : Value) (changedAt : Option Nat)
  | change (signal : Signal) (time : Nat) (value : Value)
  deriving DecidableEq, Repr

/-- The slot of each selection entry, with the entry's position. -/
def entrySlots (signals : List Signal) (indices : List Nat) (slots : List Slot) :
    List (Nat × Signal × Slot) :=
  (signals.zip indices).zipIdx.map fun entry => (entry.2, entry.1.1, slotAt slots entry.1.2)

/-- `initials`: the entering states, in selection order. -/
def initials (signals : List Signal) (indices : List Nat) (slots : List Slot) :
    List (Nat × ScanRef) :=
  (entrySlots signals indices slots).filterMap fun (index, signal, slot) =>
    slot.state.map fun state => (index, .initial signal state.value state.changedAt)

/-- The records of one entry at a completed tick. -/
def slotChanges (start time : Nat) (signal : Signal) (slot : Slot) : List ScanRef :=
  (match slot.pending with
    | some value =>
      if slot.changed ∧ start ≤ time then [.change signal time value] else []
    | none => []) ++
  if start ≤ time ∧ 0 < slot.events then [.change signal time (.event slot.events)] else []

/-- The records of a completed tick, in selection order. -/
def changes (signals : List Signal) (indices : List Nat) (start time : Nat) (slots : List Slot) :
    List (Nat × ScanRef) :=
  (entrySlots signals indices slots).flatMap fun (index, signal, slot) =>
    (slotChanges start time signal slot).map fun record => (index, record)

/-- What a scan hands its records to, each with the position of its entry. -/
abbrev ScanVisitor (σ B : Type) := σ → Nat × ScanRef → σ × ControlFlow B

/-- `scan_tick`: the first tick of the window emits the initials. -/
def scanTick {σ B : Type} (signals : List Signal) (indices : List Nat) (start : Nat)
    (visitor : ScanVisitor σ B) : TickVisitor (Bool × σ) B := fun (emitted, c) time slots =>
  if !emitted && decide (start ≤ time) then
    match visit visitor c (initials signals indices slots) with
    | (c, .break b) => ((true, c), .ok (.break b))
    | (c, .continue) =>
      let (c, flow) := visit visitor c (changes signals indices start time slots)
      ((true, c), .ok flow)
  else
    let (c, flow) := visit visitor c (changes signals indices start time slots)
    ((emitted, c), .ok flow)

/-- The last tick of a scan: an open range ends with the waveform, but not before its start. -/
def Waveform.scanEnd (w : Waveform) (range : TimeRange) : Nat :=
  (range.stop.or (w.timeSpan.map fun span => max span.last range.start)).getD u64Max

/-- `Selection::scan_each`. -/
def Selection.scanEach {σ B : Type} (sizes : Sizes) (src : Source) (sel : Selection)
    (range : TimeRange) (visitor : ScanVisitor σ B) (c : σ) :
    Selection × σ × Except Error (ControlFlow B) :=
  let stop := sel.waveform.scanEnd range
  if range.isEmpty || decide (stop < range.start) || sel.signals.isEmpty then
    (sel, c, .ok .continue)
  else
    match sel.readTicksFrom sizes src (some range.start) stop
        (scanTick sel.signals sel.plan.indices range.start visitor) (false, c) with
    | (sel, _, (_, c), .error e) => (sel, c, .error e)
    | (sel, _, (_, c), .ok (.break b)) => (sel, c, .ok (.break b))
    | (sel, slots, (emitted, c), .ok .continue) =>
      if emitted then (sel, c, .ok .continue)
      else
        -- No tick of the window was recorded: the initials come after the end.
        match visit visitor c (initials sel.signals sel.plan.indices slots) with
        | (c, .continue) => (sel, c, .ok .continue)
        | (c, .break b) => (sel.cleared, c, .ok (.break b))

/-! ## Points -/

/-- `update`: a different value replaces the state. -/
def update (state : Option State) (value : Value) (time : Nat) : Option State :=
  if state.any fun previous => previous.value.sameValue value then state
  else some ⟨value, state.map fun _ => time⟩

/-- The state of an entry after a record of the scan of a point. -/
def pointState (state : Option State) : ScanRef → Option State
  | .initial _ value changedAt => some ⟨value.toOwned, changedAt⟩
  | .change _ _ (.event _) => state
  | .change _ time value => update state value.toOwned time

/-- The events of an entry after a record of the scan of a point. -/
def pointEvents (events : Nat) : ScanRef → Nat
  | .change _ _ (.event occurrences) => occurrences
  | _ => events

/-- Collect a record of the scan of a point, in the states and the events of the entries. -/
def collectPoint (point : List (Option State) × List Nat) (entry : Nat × ScanRef) :
    List (Option State) × List Nat :=
  (point.1.modify entry.1 (pointState · entry.2), point.2.modify entry.1 (pointEvents · entry.2))

/-- The sample of an entry from its state and events. -/
def pointSample (signal : Signal) (state : Option State) (events : Nat) : Sample :=
  if signal.encoding = .event then .event signal events
  else
    match state with
    | some state => .value signal state.value state.changedAt
    | none => .missing signal

/-- `sample_visit`, behind `Selection::visit_samples`. -/
def Selection.visitSamples {σ B : Type} (sizes : Sizes) (src : Source) (sel : Selection)
    (time : Nat) (visitor : σ → Sample → σ × ControlFlow B) (c : σ) :
    Selection × σ × Except Error (ControlFlow B) :=
  match sel.scanEach (B := Unit) sizes src (.point time)
      (fun point record => (collectPoint point record, .continue))
      (List.replicate sel.signals.length none, List.replicate sel.signals.length 0) with
  | (sel, _, .error e) => (sel, c, .error e)
  | (sel, point, .ok _) =>
    -- The snapshots are given back when the visitor has seen every sample.
    match visit visitor c ((sel.signals.zip (point.1.zip point.2)).map fun entry =>
        pointSample entry.1 entry.2.1 entry.2.2) with
    | (c, .continue) => (sel, c, .ok .continue)
    | (c, .break b) => (sel.cleared, c, .ok (.break b))

/-- `Selection::samples`. -/
def Selection.samples (sizes : Sizes) (src : Source) (sel : Selection) (time : Nat) :
    Selection × Except Error (List Sample) :=
  match sel.visitSamples (B := Unit) sizes src time
      (fun samples sample => (samples ++ [sample], .continue)) [] with
  | (sel, _, .error e) => (sel, .error e)
  | (sel, samples, .ok _) => (sel, .ok samples)

/-! ## Traces -/

/-- A state established before a trace. -/
structure Initial where
  value : Value
  changedAt : Option Nat
  deriving DecidableEq, Repr

/-- A change of a trace. -/
structure Change where
  time : Nat
  value : Value
  deriving DecidableEq, Repr

/-- The saved scan of one entry. -/
structure Trace where
  signal : Signal
  range : TimeRange
  initial : Option Initial
  changes : List Change
  deriving DecidableEq, Repr

/-- Save a record of the traced entry. -/
def Trace.save (trace : Trace) : ScanRef → Trace
  | .initial _ value changedAt => { trace with initial := some ⟨value.toOwned, changedAt⟩ }
  | .change _ time value => { trace with changes := trace.changes ++ [⟨time, value.toOwned⟩] }

/-- Save a record in the trace of its entry. -/
def collectTrace (traces : List Trace) (entry : Nat × ScanRef) : List Trace :=
  traces.modify entry.1 (·.save entry.2)

/-- `Selection::traces`. -/
def Selection.traces (sizes : Sizes) (src : Source) (sel : Selection) (range : TimeRange) :
    Selection × Except Error (List Trace) :=
  match sel.scanEach (B := Unit) sizes src range
      (fun traces record => (collectTrace traces record, .continue))
      (sel.signals.map fun signal => ⟨signal, range, none, []⟩) with
  | (sel, _, .error e) => (sel, .error e)
  | (sel, traces, .ok _) => (sel, .ok traces)

namespace Trace

/-- `Trace::sample`. The saved changes are in order, so the partition point is the length of the
first part. -/
def sample (trace : Trace) (time : Nat) : Except Error Sample :=
  if trace.range.isEmpty || decide (time < trace.range.start) ||
      trace.range.stop.any (fun stop => decide (stop < time)) then
    .error (.traceCoverage time trace.range)
  else
    let index := (trace.changes.takeWhile fun change => decide (change.time ≤ time)).length
    let change := if index = 0 then none else trace.changes[index - 1]?
    if trace.signal.encoding = .event then
      .ok (.event trace.signal
        (match (change.filter fun change => decide (change.time = time)).map Change.value with
          | some (.event occurrences) => occurrences
          | _ => 0))
    else
      match change with
      | some change =>
        .ok (.value trace.signal change.value
          (if 1 < index ∨ trace.initial.isSome = true then some change.time else none))
      | none =>
        match trace.initial with
        | some initial => .ok (.value trace.signal initial.value initial.changedAt)
        | none => .ok (.missing trace.signal)

/-- `Trace::samples_at`. -/
def samplesAt (trace : Trace) (times : List Nat) : Except Error (List (Nat × Sample)) :=
  times.mapM fun time => (trace.sample time).map fun sample => (time, sample)

end Trace

/-! ## Points in one traversal -/

/-- A row of observations. -/
abbrev Row := Nat × List Sample

/-- The samples of every entry. -/
def observe (signals : List Signal) (indices : List Nat) (slots : List Slot) (tick : Option Nat) :
    List Sample :=
  (entrySlots signals indices slots).map fun (_, signal, slot) => slot.sample signal tick

/-- The rows in the order of their times. -/
def schedule (times : List Nat) : List Nat :=
  (List.range times.length).insertionSort fun i j => times.getD i 0 ≤ times.getD j 0

/-- Fill the rows that are due at a completed tick, from the slots before the tick is committed. -/
def fillRows (signals : List Signal) (indices times : List Nat) (time : Nat) (slots : List Slot) :
    List Row → List Nat → List Row × List Nat
  | rows, [] => (rows, [])
  | rows, index :: order =>
    if times.getD index 0 ≤ time then
      fillRows signals indices times time slots
        (rows.modify index fun row => (row.1, observe signals indices slots
          (if times.getD index 0 = time then some time else none))) order
    else (rows, index :: order)

/-- `Selection::samples_at`. -/
def Selection.samplesAt (sizes : Sizes) (src : Source) (sel : Selection) (times : List Nat) :
    Selection × Except Error (List Row) :=
  let rows := times.map fun time => (time, [])
  if times.isEmpty || sel.signals.isEmpty then (sel, .ok rows)
  else
    let order := schedule times
    let stop := times.getD (order.getLastD 0) 0
    match sel.readTicksFrom (B := Unit) sizes src none stop
        (fun (rows, order) time slots =>
          (fillRows sel.signals sel.plan.indices times time slots rows order, .ok .continue))
        (rows, order) with
    | (sel, _, _, .error e) => (sel, .error e)
    | (sel, slots, (rows, order), .ok _) =>
      (sel, .ok (order.foldl (fun rows index => rows.modify index fun row =>
        (row.1, observe sel.signals sel.plan.indices slots none)) rows))

/-! ## Queries -/

/-- `validate_indices`. -/
def validateIndices (len : Nat) (indices : List Nat) : Except Error Unit :=
  match indices.find? fun index => decide (len ≤ index) with
  | some index => .error (.invalidSelectionIndex index len)
  | none => .ok ()

/-- What a query callback can read: a completed tick and the events of the visited tick before. -/
structure QueryContext where
  time : Nat
  signals : List Signal
  slots : List Slot
  indices : List Nat
  previousTick : Option Nat
  previousEvents : List Nat

namespace QueryContext

/-- The sample of an entry at the current tick or at the tick before it. -/
def sample (ctx : QueryContext) (time index : Nat) : Option Sample :=
  (entrySlots ctx.signals ctx.indices ctx.slots)[index]?.map fun (_, signal, slot) =>
    if time = ctx.time then slot.sample signal (some ctx.time)
    else
      match slot.sample signal none with
      | .event signal _ =>
        .event signal (if ctx.previousTick = some time then
          ctx.previousEvents.getD (ctx.indices.getD index 0) 0 else 0)
      | sample => sample

/-- Visit samples until the visitor stops or fails. -/
def visitEntries {σ B : Type} (visitor : σ → Nat × Sample → σ × Except Error (ControlFlow B)) :
    σ → List (Nat × Sample) → σ × Except Error (ControlFlow B)
  | c, [] => (c, .ok .continue)
  | c, entry :: rest =>
    match visitor c entry with
    | (c, .ok .continue) => visitEntries visitor c rest
    | (c, outcome) => (c, outcome)

/-- `QueryContext::visit_samples`. -/
def visitSamples {σ B : Type} (ctx : QueryContext) (time : Nat) (indices : List Nat)
    (visitor : σ → Nat × Sample → σ × Except Error (ControlFlow B)) (c : σ) :
    σ × Except Error (ControlFlow B) :=
  if time ≠ ctx.time ∧ ¬ (0 < ctx.time ∧ time = ctx.time - 1) then
    (c, .error (.invalidQueryTime time ctx.time))
  else
    match validateIndices ctx.signals.length indices with
    | .error e => (c, .error e)
    | .ok () =>
      visitEntries visitor c (indices.filterMap fun index =>
        (ctx.sample time index).map fun sample => (index, sample))

end QueryContext

/-- What a query calls at its candidate ticks. -/
abbrev QueryVisitor (σ B : Type) := σ → QueryContext → σ × Except Error (ControlFlow B)

/-- The variables of a query: the visitor's state, and the last visited tick with its events. -/
structure QueryState (σ : Type) where
  visited : σ
  previousTick : Option Nat
  previousEvents : List Nat

/-- The ticks a query visits: the candidates of its drivers from the start of its range on. -/
def queryTick {σ B : Type} (signals : List Signal) (indices drivers : List Nat) (start : Nat)
    (visitor : QueryVisitor σ B) : TickVisitor (QueryState σ) B := fun st time slots =>
  let next (c : σ) : QueryState σ := ⟨c, some time, slots.map Slot.events⟩
  if decide (start ≤ time) && drivers.any (fun index => (slotAt slots (indices.getD index 0)).busy)
  then
    match visitor st.visited
      ⟨time, signals, slots, indices, st.previousTick, st.previousEvents⟩ with
    | (c, .ok .continue) => (next c, .ok .continue)
    | (c, outcome) => ({ st with visited := c }, outcome)
  else (next st.visited, .ok .continue)

/-- The last tick of a query: an open range ends with the waveform. -/
def Waveform.queryEnd (w : Waveform) (range : TimeRange) : Nat :=
  (range.stop.or (w.timeSpan.map TimeSpan.last)).getD u64Max

/-- `Selection::query`. It also needs the events of the tick before its range. -/
def Selection.query {σ B : Type} (sizes : Sizes) (src : Source) (sel : Selection)
    (range : TimeRange) (drivers : List Nat) (visitor : QueryVisitor σ B) (c : σ) :
    Selection × σ × Except Error (ControlFlow B) :=
  match validateIndices sel.signals.length drivers with
  | .error e => (sel, c, .error e)
  | .ok () =>
    let stop := sel.waveform.queryEnd range
    if drivers.isEmpty || range.isEmpty || decide (stop < range.start) then (sel, c, .ok .continue)
    else
      match sel.readTicksFrom sizes src
        (if range.start = 0 then none else some (range.start - 1)) stop
          (queryTick sel.signals sel.plan.indices drivers range.start visitor)
          ⟨c, none, List.replicate sel.plan.retained.length 0⟩ with
      | (sel, _, st, outcome) => (sel, st.visited, outcome)

end Ondas.Query
