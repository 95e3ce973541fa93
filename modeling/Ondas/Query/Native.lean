import Ondas.Query.Repeats
import Ondas.Query.Session

/-!
# Selections over native readers

A native reader reads from a tick, not from a place in a file, and it can also seek the state of bit
histories at a tick. A selection uses that for points and for the state that enters a window
(`NativeSelection.pointStates`), and keeps what it finds as a snapshot.

An SHM reader may certify some histories of a point and leave the others to an ordinary read. It has
prepared that read then (`handoff`), and a temporary selection of the other histories consumes it.
That selection reads a point itself, so the operations take its samples as a parameter (`Fallback`),
which `Native.fallback` ties up as often as histories can be left.
-/

namespace Ondas.Query

open Library
open Vcd (Position)

/-! ## Native readers -/

/-- The native readers. -/
inductive NativeKind where
  | fsdb
  | shm
  | wlf
  | wdb
  deriving DecidableEq, Repr

/-- A record of a native read: the history, the tick and the value, which may have failed to
decode. -/
abbrev NativeRecord := Nat × Nat × Except Error Value

/-- A native reader. `sampleBits` is that of FSDB, WLF and WDB: the samples of some handles of the
given histories. `shmPoints` is the native point of SHM: the samples it certifies, or nothing. A
read may be told to resume, and goes from a tick to another. -/
structure Native where
  kind : NativeKind
  backend : String
  sampleBits : List Signal → List Signal → Nat → Except Error (List Sample)
  shmPoints : List Signal → Nat → Bool → Except Error (Option (List (Option Sample)))
  read : ∀ {σ B : Type}, Bool → List Signal → Nat → Nat →
    (σ → NativeRecord → σ × ControlFlow B) → σ → σ × Except Error (ControlFlow B)

/-- The point an SHM reader has prepared for the ordinary read that comes next: `point_fallback`. -/
abbrev Handoff := Option (List Nat × Nat)

/-- The error of SHM data that break their contract. -/
def shmError (message : String) : Error := .backend "shm-lib" "decode" message

/-- `sample_bits` of SHM: a prepared point is left to its read. What is not certified is
prepared. -/
def Native.shmSampleBits (n : Native) (handoff : Handoff) (bases : List Signal) (time : Nat)
    (prepareFallback : Bool) : Handoff × Except Error (Option (List (Option Sample))) :=
  let ids := bases.map Signal.index
  if handoff = some (ids, time) then (none, .ok none)
  else
    match n.shmPoints bases time prepareFallback with
    | .error e => (none, .error e)
    | .ok none => (if prepareFallback then some (ids, time) else none, .ok none)
    | .ok (some samples) =>
      let missing := (ids.zip samples).filterMap fun entry =>
        if entry.2.isNone then some entry.1 else none
      if missing.isEmpty then (none, .ok (some samples))
      else if missing.length = bases.length then
        (none, .error (shmError "invalid SHM partial point result"))
      else (some (missing, time), .ok (some samples))

/-- No history of events: a boundary does not keep the event counts of the tick before it. -/
def cacheable (bases : List Signal) : Bool :=
  !bases.any fun base => decide (base.encoding = .event)

/-- The reader under a traversal. A position is the tick to read from, with the last tick that can
be behind it. From the position `resumable` the read is told to resume. -/
def Native.source (n : Native) (resumable : Option Position) : Source where
  backend := n.backend
  read := fun bases stop origin callback c =>
    match n.read (origin.isSome && decide (origin = resumable) && cacheable bases) bases
      ((origin.map Position.offset).getD 0) stop
      (fun c record => callback c (.record record.1 record.2.2 record.2.1
        (if cacheable bases then some ⟨record.2.1, record.2.1, false⟩ else none))) c with
    | (c, .ok .continue) => (c, .ok .continue,
        if cacheable bases && decide (stop + 1 ≤ u64Max) then some ⟨stop + 1, stop, false⟩
        else none)
    | (c, outcome) => (c, outcome, none)
  parallelPrefix := fun _ _ => none

/-- The position an SHM read resumes: `shm_resume`, a boundary at which every value is known. -/
def Native.resumable (n : Native) (sel : Selection) (start : Option Nat) (stop : Nat) :
    Option Position :=
  if n.kind = .shm then
    ((sel.resumed start stop).filter fun replay => decide (0 < replay.position.offset) &&
      replay.time.isNone && replay.slots.all fun slot => slot.state.isSome).map Replay.position
  else none

/-- Only FSDB keeps the snapshot of an end whatever its size. -/
def Native.trim (n : Native) (sizes : Sizes) (sel : Selection) : Selection :=
  { sel with
    replay := sel.replay.filter fun replay => decide (n.kind = .fsdb) ||
      decide (checkpointBytes sizes replay.slots ≤ checkpointLimit) }

/-! ## The state at a point -/

/-- A selection over a native reader, with what the reader has prepared. -/
structure NativeSelection where
  sel : Selection
  handoff : Handoff

/-- The state of a sample. -/
def Sample.state : Sample → Option State
  | .value _ known changedAt => some ⟨known, changedAt⟩
  | _ => none

/-- The signal of a sample. -/
def Sample.signal : Sample → Signal
  | .missing signal => signal
  | .value signal _ _ => signal
  | .event signal _ => signal

/-- A slot with the state of a sample. -/
def Sample.slot (sample : Sample) : Slot := { Slot.empty with state := sample.state }

/-- The slots of the entries of a selection. -/
def Plan.states (plan : Plan) (slots : List Slot) : List (Option State) :=
  plan.indices.map fun index => (slotAt slots index).state

/-- The slots a point of the histories fills: whole handles and slices of single bits alike. -/
def Plan.pointSlots (plan : Plan) (samples : List Sample) : List Slot :=
  samples.foldl
    (fun slots sample => modifyAll (fun slot => { slot with state := sample.state }) slots
      (plan.entries sample.signal.index))
    (plan.retained.map fun _ => Slot.empty)

/-- The sample of a slot of a snapshot, whose last tick is not completed. -/
def Replay.sample (replay : Replay) (signal : Signal) (slot : Slot) : Sample :=
  match slot.pending, slot.state with
  | some value, some state =>
    .value signal value (if state.value.sameValue value then state.changedAt else replay.time)
  | some value, none => .value signal value none
  | none, some state => .value signal state.value state.changedAt
  | none, none => .missing signal

/-- What a temporary selection of some histories samples, over what the reader has prepared. -/
abbrev Fallback := Waveform → List Signal → Nat → Handoff → Handoff × Except Error (List Sample)

/-- Fill the samples that are not certified. -/
def fillSamples : List (Option Sample) → List Sample → List Sample
  | [], _ => []
  | some sample :: rest, fallback => sample :: fillSamples rest fallback
  | none :: rest, sample :: fallback => sample :: fillSamples rest fallback
  | none :: rest, [] => fillSamples rest []

/-- The histories of a point that are not certified. -/
def uncertified (bases : List Signal) (samples : List (Option Sample)) : List Signal :=
  (bases.zip samples).filterMap fun entry => if entry.2.isNone then some entry.1 else none

/-- The state of a WDB selection whose handles repeat one source comes from that source. -/
def Native.repeatsSource (n : Native) (plan : Plan) : Bool :=
  decide (n.kind = .wdb) && plan.repeatsOneSource

/-- The selections and the ticks of which `point_states` seeks the state. -/
def Native.seeks (n : Native) (plan : Plan) (signals : List Signal) (time : Nat) : Bool :=
  (plan.computations.isEmpty || n.repeatsSource plan) && !signals.isEmpty &&
    plan.bases.all (fun base => base.width.isSome) &&
    (decide (n.kind ≠ .shm) || decide (time ≠ u64Max) &&
      plan.retained.all fun signal => !signal.isSlice || decide (signal.base.encoding = .bits 1))

section
variable (fallback : Fallback) (sizes : Sizes) (n : Native)

/-- `Selection::shm_point_samples`. -/
def Native.shmPointSamples (w : Waveform) (bases : List Signal) (handoff : Handoff) (time : Nat)
    (prepareFallback : Bool) : Handoff × Except Error (Option (List Sample)) :=
  match n.shmSampleBits handoff bases time prepareFallback with
  | (handoff, .error e) => (handoff, .error e)
  | (handoff, .ok none) => (handoff, .ok none)
  | (handoff, .ok (some samples)) =>
    let missing := uncertified bases samples
    if missing.isEmpty then (handoff, .ok (some (fillSamples samples [])))
    else
      match fallback w missing time handoff with
      | (handoff, .error e) => (handoff, .error e)
      | (handoff, .ok filled) => (handoff, .ok (some (fillSamples samples filled)))

/-- The slots of the state a native reader seeks. -/
def Native.slotsAt (sel : Selection) (handoff : Handoff) (time : Nat) (prepareFallback : Bool) :
    Handoff × Except Error (Option (List Slot)) :=
  match n.kind with
  | .shm =>
    match n.shmPointSamples fallback sel.waveform sel.plan.bases handoff time prepareFallback with
    | (handoff, .error e) => (handoff, .error e)
    | (handoff, .ok none) => (handoff, .ok none)
    | (handoff, .ok (some samples)) => (handoff, .ok (some (sel.plan.pointSlots samples)))
  | _ =>
    match n.sampleBits sel.plan.bases
      (if n.repeatsSource sel.plan then sel.plan.bases else sel.plan.retained) time with
    | .error e => (handoff, .error e)
    | .ok samples =>
      let slots := samples.map Sample.slot
      (handoff, .ok (some (if n.repeatsSource sel.plan then
        sel.plan.repeatedSourceSlots (slots.head?.bind Slot.state) else slots)))

namespace NativeSelection

/-- `Selection::point_states`: the states a tick leaves, when the reader can seek them. -/
def pointStates (ns : NativeSelection) (time : Nat) (prepareFallback : Bool) :
    NativeSelection × Except Error (Option (List (Option State))) :=
  if !n.seeks ns.sel.plan ns.sel.signals time then (ns, .ok none)
  else
    match ns.sel.replay.filter fun replay => replay.time.isNone && decide (replay.stop = time) &&
      decide (replay.start = time + 1) && decide (time + 1 ≤ u64Max) with
    | some replay => (ns, .ok (some (ns.sel.plan.states replay.slots)))
    | none =>
      -- A traversal that starts from a snapshot is left to go on.
      if ns.sel.replay.any (Replay.eligible (some time) time) ||
          ns.sel.checkpoint.any (Replay.eligible (some time) time) then (ns, .ok none)
      else
        match n.slotsAt fallback ns.sel ns.handoff time prepareFallback with
        | (handoff, .error e) => (⟨ns.sel.cleared, handoff⟩, .error e)
        | (handoff, .ok none) => (⟨ns.sel.cleared, handoff⟩, .ok none)
        | (handoff, .ok (some slots)) =>
          -- The snapshot is the state after the tick, so it starts at the next one.
          (⟨if time + 1 ≤ u64Max ∧ checkpointBytes sizes slots ≤ checkpointLimit then
              { ns.sel.cleared with
                replay := some { position := ⟨time + 1, time, false⟩, start := time + 1,
                                 stop := time, time := none, slots := slots } }
            else ns.sel.cleared, handoff⟩, .ok (some (ns.sel.plan.states slots)))

/-! ## The read interfaces -/

/-- The state that enters a window is sought when no snapshot gives it. -/
def seed (ns : NativeSelection) (seedPoint : Bool) (start : Option Nat) (stop : Nat) :
    NativeSelection × Except Error Unit :=
  match start.filter (0 < ·) with
  | none => (ns, .ok ())
  | some entry =>
    if seedPoint && !ns.sel.replay.any (Replay.eligible start stop) &&
        !ns.sel.checkpoint.any (Replay.eligible start stop) then
      match ns.pointStates fallback sizes n (entry - 1) false with
      | (ns, .error e) => (ns, .error e)
      | (ns, .ok _) => (ns, .ok ())
    else (ns, .ok ())

/-- An operation with one traversal, `read_ticks_from`, of the window. -/
def window {α : Type} (ns : NativeSelection) (seedPoint : Bool) (start : Option Nat) (stop : Nat)
    (op : Source → Selection → Selection × α) : NativeSelection × Except Error α :=
  match ns.seed fallback sizes n seedPoint start stop with
  | (ns, .error e) => (ns, .error e)
  | (ns, .ok ()) =>
    let r := op (n.source (n.resumable ns.sel start stop)) ns.sel
    (⟨n.trim sizes r.1, none⟩, .ok r.2)

variable {σ B : Type}

/-- `Selection::scan_each_with_point_seed`. -/
def scanEach (ns : NativeSelection) (seedPoint : Bool) (range : TimeRange)
    (visitor : ScanVisitor σ B) (c : σ) : NativeSelection × σ × Except Error (ControlFlow B) :=
  if ns.sel.idleScan range then (ns, c, .ok .continue)
  else
    match ns.window fallback sizes n seedPoint (some range.start) (ns.sel.waveform.scanEnd range)
      fun src sel => sel.scanEach sizes src range visitor c with
    | (ns, .error e) => (ns, c, .error e)
    | (ns, .ok answer) => (ns, answer)

/-- The samples of `shm_replay_sample_visit`: a snapshot that ends at the tick. -/
def replaySamples (ns : NativeSelection) (time : Nat) : Option (List Sample) :=
  if ns.sel.plan.computations.isEmpty && decide (n.kind = .shm) then
    (ns.sel.replay.filter fun replay => decide (replay.stop = time)).map fun replay =>
      (ns.sel.signals.zip ns.sel.plan.indices).map fun (signal, index) =>
        replay.sample signal (slotAt replay.slots index)
  else none

/-- Hand samples to a visitor; the snapshots are given back when it has seen every one. -/
def handSamples (ns : NativeSelection) (visitor : σ → Sample → σ × ControlFlow B) (c : σ)
    (samples : List Sample) : NativeSelection × σ × Except Error (ControlFlow B) :=
  match visit visitor c samples with
  | (c, .continue) => (ns, c, .ok .continue)
  | (c, .break b) => ({ ns with sel := ns.sel.cleared }, c, .ok (.break b))

/-- `Selection::sample_visit`. -/
def visitSamples (ns : NativeSelection) (time : Nat) (visitor : σ → Sample → σ × ControlFlow B)
    (c : σ) : NativeSelection × σ × Except Error (ControlFlow B) :=
  match ns.replaySamples n time with
  | some samples => ns.handSamples visitor c samples
  | none =>
    let hand (ns : NativeSelection) (states : List (Option State)) (events : List Nat) :=
      ns.handSamples visitor c ((ns.sel.signals.zip (states.zip events)).map fun entry =>
        pointSample entry.1 entry.2.1 entry.2.2)
    match ns.pointStates fallback sizes n time true with
    | (ns, .error e) => (ns, c, .error e)
    | (ns, .ok (some states)) => hand ns states (List.replicate ns.sel.signals.length 0)
    | (ns, .ok none) =>
      -- SHM has tried this point already.
      match ns.scanEach (B := Unit) fallback sizes n (decide (n.kind ≠ .shm)) (.point time)
        (fun point record => (collectPoint point record, .continue))
        (List.replicate ns.sel.signals.length none, List.replicate ns.sel.signals.length 0) with
      | (ns, _, .error e) => (ns, c, .error e)
      | (ns, point, .ok _) => hand ns point.1 point.2

/-- `Selection::samples`. -/
def samples (ns : NativeSelection) (time : Nat) : NativeSelection × Except Error (List Sample) :=
  match ns.visitSamples (B := Unit) fallback sizes n time
      (fun samples sample => (samples ++ [sample], .continue)) [] with
  | (ns, _, .error e) => (ns, .error e)
  | (ns, samples, .ok _) => (ns, .ok samples)

/-- `Selection::samples_at`. -/
def samplesAt (ns : NativeSelection) (times : List Nat) :
    NativeSelection × Except Error (List Row) :=
  if times.isEmpty || ns.sel.signals.isEmpty then (ns, .ok (times.map fun time => (time, [])))
  else
    match ns.window fallback sizes n true none (times.getD ((schedule times).getLastD 0) 0)
      fun src sel => sel.samplesAt sizes src times with
    | (ns, .error e) => (ns, .error e)
    | (ns, .ok answer) => (ns, answer)

/-- `Selection::traces`. -/
def traces (ns : NativeSelection) (range : TimeRange) :
    NativeSelection × Except Error (List Trace) :=
  match ns.scanEach (B := Unit) fallback sizes n true range
      (fun traces record => (collectTrace traces record, .continue))
      (ns.sel.signals.map fun signal => ⟨signal, range, none, []⟩) with
  | (ns, _, .error e) => (ns, .error e)
  | (ns, traces, .ok _) => (ns, .ok traces)

/-- `Selection::query`. -/
def query (ns : NativeSelection) (range : TimeRange) (drivers : List Nat)
    (visitor : QueryVisitor σ B) (c : σ) : NativeSelection × σ × Except Error (ControlFlow B) :=
  match validateIndices ns.sel.signals.length drivers with
  | .error e => (ns, c, .error e)
  | .ok () =>
    if ns.sel.idleQuery range drivers then (ns, c, .ok .continue)
    else
      match ns.window fallback sizes n true
        (if range.start = 0 then none else some (range.start - 1)) (ns.sel.waveform.queryEnd range)
        fun src sel => sel.query sizes src range drivers visitor c with
      | (ns, .error e) => (ns, c, .error e)
      | (ns, .ok answer) => (ns, answer)

end NativeSelection
end

/-- The samples of a temporary selection, when no more than so many histories can be left to it. -/
def Native.fallback (sizes : Sizes) (n : Native) : Nat → Fallback
  | 0 => fun _ _ _ handoff => (handoff, .error (shmError "no history is left"))
  | depth + 1 => fun w signals time handoff =>
    match Selection.new w signals with
    | .error e => (handoff, .error e)
    | .ok sel =>
      let r := NativeSelection.samples (n.fallback sizes depth) sizes n ⟨sel, handoff⟩ time
      (r.1.handoff, r.2)

end Ondas.Query
