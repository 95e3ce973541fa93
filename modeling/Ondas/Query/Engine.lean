import Ondas.Query.Slot
import Ondas.Vcd.Walk

/-!
# The traversal of completed ticks

`Selection.readTicksFrom` drives a reader over the histories of a selection and hands its visitor
one completed tick after the other. It may start from a snapshot of an earlier operation (`replay`
or `checkpoint`), and it leaves snapshots for the next one.

A reader is a `Source`: it hands its deliveries to a callback until that breaks. The callback of the
traversal is `consume`, whose variables are a `Tally`.
-/

namespace Ondas.Query

open Library
open Vcd (Position)

/-! ## Readers -/

/-- What a reader hands to the traversal: a record, which may have failed to decode, or the end of a
physical tick. -/
inductive Delivery where
  | record (base : Nat) (value : Except Error Value) (time : Nat) (position : Option Position)
  | tick (time : Nat)

/-- A reader, as a selection uses it: a read from an optional position up to an end, which also says
which position it stopped at, and the state at an end tick that chunks can compute in parallel. -/
structure Source where
  backend : String
  read : ∀ {σ B : Type}, List Signal → Nat → Option Position →
    (σ → Delivery → σ × ControlFlow B) → σ → σ × Except Error (ControlFlow B) × Option Position
  parallelPrefix : List Signal → Nat → Option (List Sample × Position)

/-! ## Selections and snapshots -/

/-- A snapshot to resume from. `stop` is the source's `end`; `time` is the tick the slots are in, if
it is not completed. -/
structure Replay where
  position : Position
  start : Nat
  stop : Nat
  time : Option Nat
  slots : List Slot

/-- A selection of signals of a waveform. -/
structure Selection where
  waveform : Waveform
  signals : List Signal
  plan : Plan
  replay : Option Replay
  checkpoint : Option Replay

/-- `Selection::new`. -/
def Selection.new (w : Waveform) (signals : List Signal) : Except Error Selection :=
  match Plan.new w signals with
  | .error e => .error e
  | .ok plan => .ok ⟨w, signals, plan, none, none⟩

/-- The sizes of the snapshot types in memory. -/
structure Sizes where
  replay : Nat
  slot : Nat

/-- `CHECKPOINT_BYTES`. -/
def checkpointLimit : Nat := 4 * 1024 * 1024

/-- `usize::saturating_add`. -/
def saturatingAdd (a b : Nat) : Nat := min (a + b) u64Max

/-- The payload bytes of a value. -/
def payloadBytes : Value → Nat
  | .bits digits => digits.length
  | .string text => text.length
  | _ => 0

/-- `checkpoint_bytes`. -/
def checkpointBytes (sizes : Sizes) (slots : List Slot) : Nat :=
  slots.foldl
    (fun bytes slot =>
      ((slot.state.map State.value).toList ++ slot.pending.toList).foldl
        (fun bytes value => saturatingAdd bytes (payloadBytes value)) bytes)
    (sizes.replay + sizes.slot * slots.length)

/-- The snapshot can serve a traversal with this window. -/
def Replay.eligible (start : Option Nat) (stop : Nat) (replay : Replay) : Bool :=
  start.any (fun start => decide (replay.start ≤ start)) && decide (replay.stop ≤ stop)

/-! ## One delivery -/

/-- The variables of a traversal. -/
structure Tally (σ : Type) where
  work : List Slot × List Nat
  pendingTime : Option Nat
  checkpoint : Option Replay
  checkpointConsidered : Bool
  visited : σ

/-- The fixed data of a traversal. -/
structure Traversal (σ B : Type) where
  plan : Plan
  sizes : Sizes
  backend : String
  start : Option Nat
  visitor : TickVisitor σ B

/-- The error of an event count past `u64::MAX`. -/
def countError (backend : String) : Error :=
  .backend backend "count events" "event occurrence count exceeds u64::MAX"

section
variable {σ B : Type} (tr : Traversal σ B)

/-- Complete the pending tick. -/
def Tally.complete (st : Tally σ) (time : Nat) : Tally σ × Except Error (ControlFlow B) :=
  let r := completeTick tr.plan.computations tr.start tr.visitor st.visited time st.work
  ({ st with work := r.1, visited := r.2.1 }, r.2.2)

/-- Write a value to one slot of its history, or add its events. -/
def writeSlot (value : Value) (index : Nat) (work : List Slot × List Nat) :
    Except Error (List Slot × List Nat) :=
  let slot := slotAt work.1 index
  let active := if slot.pending.isNone && slot.events == 0 && value != .event 0 then
    work.2 ++ [index] else work.2
  match value with
  | .event occurrences =>
    if slot.events + occurrences ≤ u64Max then
      .ok (work.1.modify index fun s => { s with events := s.events + occurrences }, active)
    else .error (countError tr.backend)
  | value =>
    let owned := match tr.plan.retained[index]? with
      | some signal => (project value signal).toOwned
      | none => value.toOwned
    .ok (work.1.modify index fun s => { s with pending := some owned }, active)

/-- Write a value to every slot of its history. -/
def writeSlots (value : Value) : List Nat → List Slot × List Nat →
    Except Error (List Slot × List Nat)
  | [], work => .ok work
  | index :: rest, work =>
    match writeSlot tr value index work with
    | .error e => .error e
    | .ok work => writeSlots value rest work

/-- Keep the state before the first record of the window, at that record's position. -/
def Tally.considerCheckpoint (st : Tally σ) (time : Nat) (position : Option Position) : Tally σ :=
  match st.checkpointConsidered, tr.start, position with
  | false, some start, some position =>
    if start ≤ time ∧ st.pendingTime.all (· < start) then
      { st with
        checkpointConsidered := true
        checkpoint := if checkpointBytes tr.sizes st.work.1 ≤ checkpointLimit then
            some { position := position, start := start, stop := position.time, time := none,
                   slots := st.work.1 }
          else none }
    else st
  | _, _, _ => st

/-- Take a record after the ticks before it are completed. -/
def Tally.take (st : Tally σ) (base : Nat) (value : Except Error Value) (time : Nat)
    (position : Option Position) : Tally σ × ControlFlow (Except Error (ControlFlow B)) :=
  match value with
  -- A timed failure proves the earlier tick complete, but publishes nothing of its own.
  | .error e => (st, .break (.error e))
  | .ok value =>
    let st := st.considerCheckpoint tr time position
    match writeSlots tr value (tr.plan.entries base) st.work with
    | .error e => (st, .break (.error e))
    | .ok work => ({ st with work := work, pendingTime := some time }, .continue)

/-- `consume`, the callback of a read. -/
def consume (st : Tally σ) : Delivery → Tally σ × ControlFlow (Except Error (ControlFlow B))
  | .tick _ =>
    match st.pendingTime with
    | none => (st, .continue)
    | some previous =>
      match st.complete tr previous with
      | (st, .ok .continue) => ({ st with pendingTime := none }, .continue)
      | (st, outcome) => (st, .break outcome)
  | .record base value time position =>
    match st.pendingTime.filter fun previous => decide (previous ≠ time) with
    | none => st.take tr base value time position
    | some previous =>
      match st.complete tr previous with
      | (st, .ok .continue) => st.take tr base value time position
      | (st, outcome) => (st, .break outcome)

end

/-! ## The traversal -/

/-- Give the slots of a history its state. -/
def seedSlot (plan : Plan) (slots : List Slot) : Sample → List Slot
  | .value signal value changedAt =>
    modifyAll (fun slot => { slot with state := some ⟨value, changedAt⟩ }) slots
      (plan.entries signal.index)
  | _ => slots

/-- The slots a state computed in parallel fills. -/
def seedSlots (plan : Plan) (samples : List Sample) : List Slot :=
  samples.foldl (seedSlot plan) (List.replicate plan.retained.length .empty)

namespace Selection

/-- With nothing cached, start from the state before the window when chunks can compute it. -/
def seed (sizes : Sizes) (src : Source) (sel : Selection) (start : Option Nat) : Selection :=
  if sel.plan.computations.isEmpty && sel.replay.isNone && sel.checkpoint.isNone &&
      !sel.plan.retained.any Signal.isSlice then
    match start.filter (0 < ·) with
    | none => sel
    | some start =>
      match src.parallelPrefix sel.plan.bases (start - 1) with
      | none => sel
      | some (samples, position) =>
        let slots := seedSlots sel.plan samples
        if checkpointBytes sizes slots ≤ checkpointLimit then
          { sel with
            checkpoint := some { position := position, start := start, stop := start - 1,
                                 time := none, slots := slots } }
        else sel
  else sel

/-- The snapshot a traversal starts from. -/
def resumed (sel : Selection) (start : Option Nat) (stop : Nat) : Option Replay :=
  (sel.replay.filter (Replay.eligible start stop)).or
    (sel.checkpoint.filter (Replay.eligible start stop))

/-- The slots a snapshot restores, or empty ones. -/
def restored (plan : Plan) (replay : Option Replay) : List Slot :=
  (replay.map Replay.slots).getD (List.replicate plan.retained.length .empty)

/-- The variables a traversal starts with. -/
def tally {σ : Type} (sel : Selection) (start : Option Nat) (stop : Nat) (c : σ) : Tally σ :=
  let replay := sel.resumed start stop
  let slots := restored sel.plan replay
  { work := (slots, (List.range slots.length).filter fun i => (slotAt slots i).busy)
    pendingTime := replay.bind Replay.time
    checkpoint := sel.checkpoint
    checkpointConsidered := sel.checkpoint.any fun checkpoint => some checkpoint.start == start
    visited := c }

/-- The snapshots are taken when a traversal starts, and given back when it ends well. -/
def cleared (sel : Selection) : Selection := { sel with replay := none, checkpoint := none }

/-- `read_ticks_from`: the ticks of the window, completed, with the slots it ends with. -/
def readTicksFrom {σ B : Type} (sizes : Sizes) (src : Source) (sel : Selection)
    (start : Option Nat) (stop : Nat) (visitor : TickVisitor σ B) (c : σ) :
    Selection × List Slot × σ × Except Error (ControlFlow B) :=
  let sel := sel.seed sizes src start
  let replay := sel.resumed start stop
  let tr : Traversal σ B := ⟨sel.plan, sizes, src.backend, start, visitor⟩
  match src.read sel.plan.bases stop (replay.map Replay.position) (consume tr)
      (sel.tally start stop c) with
  | (st, .error e, _) => (sel.cleared, st.work.1, st.visited, .error e)
  | (st, .ok (.break outcome), _) => (sel.cleared, st.work.1, st.visited, outcome)
  | (st, .ok .continue, position) =>
    let next := position.map fun position =>
      { position := position
        start := st.pendingTime.getD ((replay.map Replay.start).getD 0)
        stop := stop
        time := st.pendingTime
        slots := st.work.1 : Replay }
    match st.pendingTime with
    | none =>
      ({ sel with replay := next, checkpoint := st.checkpoint }, st.work.1, st.visited,
        .ok .continue)
    | some time =>
      -- Only a successful end completes the last tick.
      match st.complete tr time with
      | (st, .ok .continue) =>
        ({ sel with replay := next, checkpoint := st.checkpoint }, st.work.1, st.visited,
          .ok .continue)
      | (st, outcome) => (sel.cleared, st.work.1, st.visited, outcome)

end Selection
end Ondas.Query
