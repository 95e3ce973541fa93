import Mathlib.Data.List.Destutter
import Mathlib.Data.List.Sort
import Ondas.Ghw.Index

/-!
# Reads through the index

`Index.read` answers a query of some source IDs from the positions of the index. It has one cursor
for each group of ranks that is asked for. The cursors wait in a heap by the frames they stand at. A
turn takes all that stand at the lowest frame, decodes the selected records of their groups there
(`Index.scan`), and moves them on. The turns are a machine, `Index.readStep`, which is driven
against the visitor as the walk is.

A scan starts at the first record of its group in the frame. It goes on record by record, as the
walk does, and skips the payloads that are not selected.
-/

namespace Ondas.Ghw

open Library Wire

/-- `Wire::seek_value`. What is buffered behind the target is kept. -/
def Wire.seekValue (offset : Nat) : Read Unit := fun w =>
  (.ok (), { w with
    offset := offset
    buffered := if w.offset ≤ offset then w.offset + w.buffered - offset else 0 })

namespace Index

/-- How a query fails: with an error of the input, or with what must not happen. -/
inductive Failure where
  | error (e : Error)
  | fault (f : Fault)

/-! ## Scanning -/

/-- The loop of `skip` over the bytes of a field. Each turn reads one of those that are left. -/
def skipLoop : Nat → Read Unit
  | 0 => Decoder.fail (malformed "truncated field")
  | left + 1 => do
    let byte ← byte
    if byte &&& 0x80 = 0 then pure () else skipLoop left

/-- `skip`: a payload is passed over, and not validated again. -/
def skip (types : Types) (type : Nat) : Read Unit :=
  match types.scalar type with
  | none => Decoder.fail (malformed "non-scalar body type")
  | some (storage, _, _) =>
    match storage with
    | .b2 | .e8 => do
      let _ordinal ← byte
      pure ()
    | .f64 => do
      let _bytes ← fixed 8
      pure ()
    | .i32 | .i64 | .p32 | .p64 => do
      let left ← Decoder.look fun w => w.rest.length
      skipLoop (left + 1)

/-- `u64::count_ones`. -/
def countOnes (bits : Nat) : Nat := (List.range 64).countP bits.testBit

/-- `Cursor` of a query: the position streams of a group, and the ranks that are selected there. -/
structure Selected where
  cursor : Cursor
  mask : Nat
  firstRoute : Nat
  last : Nat

/-- The record of a rank in `Index::scan`. That of a selected rank is an event, whose route counts
the selected ranks below it. -/
def scanRecord (t : Types) (frame : Frame) (s : Selected) (base rank id type : Nat) :
    Read (Option ScalarEvent) :=
  let bit := 1 <<< (rank - base)
  if s.mask &&& bit ≠ 0 then do
    let offset ← Decoder.look Wire.offset
    let value ← scalar t type
    let route := s.firstRoute + countOnes (s.mask &&& (bit - 1))
    pure (some ⟨id, rank, frame.time, offset, value, frame.cyclic, route⟩)
  else do
    skip t type
    pure none

/-- The rank that follows one in `Index::scan`, unless its list ends. -/
def scanNext (frame : Frame) (rank : Nat) : Read (Option Nat) :=
  if frame.cyclic then do
    let delta ← uleb
    if delta = 0 then pure none
    else do
      ensure (decide (rank + delta ≤ Types.usizeMax)) (malformed "cycle scalar rank overflow")
      pure (some (rank + delta))
  else pure (some (rank + 1))

/-- What a scan hands over: events, and then an outcome with the input that is left. -/
abbrev Scanned := List ScalarEvent × Except Failure Unit × Wire

/-- The end of a turn of `Index::scan`: it goes on at the next rank while that is of the group and
not above the last selected one. -/
def scanOn (active : Active) (s : Selected) (groupEnd : Nat) (turn : Nat → Wire → Scanned) :
    Except Error (Option Nat) × Wire → Scanned
  | (.error e, w) => ([], .error (.error e), w)
  | (.ok none, w) => ([], .ok (), w)
  | (.ok (some next), w) =>
    if groupEnd ≤ next ∨ active.length ≤ next ∨ s.last < next then ([], .ok (), w)
    else turn next w

/-- The loop of `Index::scan`. Each turn leaves a rank of the group, so that there are no more turns
than ranks in a group. -/
def scanLoop (t : Types) (active : Active) (frame : Frame) (s : Selected) (base groupEnd : Nat) :
    Nat → Nat → Wire → Scanned
  | 0, _, w => ([], .error (.fault .bounds), w)
  | left + 1, rank, w =>
    match active[rank]? with
    | none => ([], .error (.fault .bounds), w)
    | some (id, type) =>
      match scanRecord t frame s base rank id type w with
      | (.error e, w) => ([], .error (.error e), w)
      | (.ok event, w) =>
        let (events, result) :=
          scanOn active s groupEnd (scanLoop t active frame s base groupEnd left)
            (scanNext frame rank w)
        (event.toList ++ events, result)

/-- `Index::scan`, with the events for its visitor. -/
def scan (t : Types) (active : Active) (frame : Frame) (s : Selected) (w : Wire) : Scanned :=
  let base := s.cursor.group * ranksPerGroup
  let groupEnd := min (base + ranksPerGroup) active.length
  let rank := base + s.cursor.first
  if groupEnd ≤ rank ∨ s.last < rank then ([], .ok (), w)
  else
    scanLoop t active frame s base groupEnd ranksPerGroup rank (Wire.seekValue s.cursor.offset w).2

/-- The scans of the cursors in some slots, one after the other. -/
def scanAll (t : Types) (active : Active) (frame : Frame) (cursors : List Selected) :
    List Nat → Wire → Scanned
  | [], w => ([], .ok (), w)
  | slot :: slots, w =>
    match cursors[slot]? with
    | none => ([], .error (.fault .bounds), w)
    | some s =>
      match scan t active frame s w with
      | (events, .error e, w) => (events, .error e, w)
      | (events, .ok (), w) =>
        let (more, result) := scanAll t active frame cursors slots w
        (events ++ more, result)

/-! ## The query -/

/-- The ranks of some source IDs: `binary_search_by_key` on the active table, whose IDs ascend. -/
def ranksOf (active : Active) : List Nat → Read (List Nat)
  | [] => pure []
  | id :: ids =>
    match active.findIdx? fun source => source.1 == id with
    | none => Decoder.fail (malformed "inactive private source ID")
    | some rank => do
      let ranks ← ranksOf active ids
      pure (rank :: ranks)

/-- `sort_unstable` and `dedup` of the ranks. -/
def sortedRanks (ranks : List Nat) : List Nat :=
  (ranks.insertionSort (· ≤ ·)).destutter (· ≠ ·)

/-- The mask of a group: a bit for each of its selected ranks. -/
def maskOf (base : Nat) (ranks : List Nat) : Nat :=
  ranks.foldl (fun mask rank => mask ||| 1 <<< (rank - base)) 0

/-- The cursor of a group, with the position of its first selected rank and the other ones. -/
def Selected.of (position rank : Nat) (same : List Nat) : Selected where
  cursor := .fresh (rank / ranksPerGroup)
  mask := maskOf (rank / ranksPerGroup * ranksPerGroup) (rank :: same)
  firstRoute := position
  last := same.getLastD rank

/-- The loop of `Index::read` over the ranks from a position on, with the turns left: a cursor for
each group, unless the index has no position of it. Nothing is returned for a position that does not
fit a route. -/
def selectLoop (x : Index) : Nat → Nat → List Nat → Except Fault (Option (List Selected))
  | _, _, [] => pure (some [])
  | 0, _, _ :: _ => pure (some [])
  | left + 1, position, rank :: ranks =>
    let group := rank / ranksPerGroup
    let same := ranks.takeWhile fun rank => decide (rank / ranksPerGroup = group)
    if 2 ^ 32 ≤ position then pure none
    else do
      let ids ← item x.ids.items group
      let rest ← selectLoop x left (position + 1 + same.length) (ranks.drop same.length)
      pure (if ids.items.isEmpty then rest else rest.map (.of position rank same :: ·))

/-- The order of the heap: by frame, and then by slot. -/
def Sooner (a b : Nat × Nat) : Prop := a.1 < b.1 ∨ a.1 = b.1 ∧ a.2 ≤ b.2

instance : DecidableRel Sooner := fun _ _ => inferInstanceAs (Decidable (_ ∨ _))

/-- The state of `Index::read`. The heap is the list of its entries in order. -/
structure Reading where
  wire : Wire
  cursors : List Selected
  heap : List (Nat × Nat)
  current : Option Nat

/-- Cursors in some slots are moved on, and pushed when they have another position. -/
def advanceAll (checked : Bool) (x : Index) : List Nat → List Selected → List (Nat × Nat) →
    Except Fault (List Selected × List (Nat × Nat))
  | [], cursors, heap => pure (cursors, heap)
  | slot :: slots, cursors, heap => do
    let s ← item cursors slot
    let next ← x.advance checked s.cursor
    match next with
    | none => advanceAll checked x slots cursors heap
    | some cursor =>
      advanceAll checked x slots (cursors.set slot { s with cursor })
        (heap.orderedInsert Sooner (cursor.frame, slot))

/-- The first part of `Index::read`. `reserved` says which of its reservations succeed, in their
order. Nothing is returned when one fails. -/
def query (checked : Bool) (x : Index) (reserved : Nat → Bool) (active : Active) (ids : List Nat)
    (w : Wire) : Except Failure (Option Reading) :=
  if !reserved 0 then .ok none
  else
    match ranksOf active ids w with
    | (.error e, _) => .error (.error e)
    | (.ok ranks, w) =>
      let ranks := sortedRanks ranks
      if 2 ^ 32 ≤ ranks.length ∨ !reserved 1 then .ok none
      else
        match selectLoop x ranks.length 0 ranks with
        | .error fault => .error (.fault fault)
        | .ok none => .ok none
        | .ok (some cursors) =>
          if !reserved 2 then .ok none
          else
            match advanceAll checked x (List.range cursors.length) cursors [] with
            | .error fault => .error (.fault fault)
            | .ok (cursors, heap) =>
              if !reserved 3 then .ok none else .ok (some ⟨w, cursors, heap, none⟩)

/-- `tick` of the time that is complete, if one is. -/
def closing (current : Option Nat) : List Event :=
  current.toList.flatMap fun time => [.listEnd time, .tick time]

/-- One turn of `Index::read`: all cursors that stand at the lowest frame. -/
def readStep (checked : Bool) (x : Index) (t : Types) (active : Active) (stop : Nat)
    (r : Reading) : List Event × Outcome Reading (Except Failure Unit) :=
  match r.heap with
  | [] => (closing r.current, .stop (.ok ()))
  | (frame, _) :: _ =>
    match x.frames.items[frame]? with
    | none => ([], .stop (.error (.fault .bounds)))
    | some stored =>
      if stop < stored.time then (closing r.current, .stop (.ok ()))
      else
        let pending := (r.heap.takeWhile fun entry => decide (entry.1 = frame)).map Prod.snd
        let ticks := closing (r.current.filter fun previous => decide (previous ≠ stored.time))
        match scanAll t active stored r.cursors pending r.wire with
        | (events, .error e, _) => (ticks ++ events.map .scalar, .stop (.error e))
        | (events, .ok (), wire) =>
          match advanceAll checked x pending r.cursors (r.heap.drop pending.length) with
          | .error fault => (ticks ++ events.map .scalar, .stop (.error (.fault fault)))
          | .ok (cursors, heap) =>
            (ticks ++ events.map .scalar, .next ⟨wire, cursors, heap, some stored.time⟩)

section
variable {σ B : Type}

/-- `Index::read`: the visitor's state and the outcome. Nothing is returned when the walk must
answer instead. No frame takes two turns, so that their number is fuel enough. -/
def read (checked : Bool) (x : Index) (reserved : Nat → Bool) (t : Types) (active : Active)
    (ids : List Nat) (stop : Nat) (visitor : σ → Event → σ × ControlFlow B) (c : σ) (w : Wire) :
    σ × Except Failure (Option (ControlFlow B)) :=
  match query checked x reserved active ids w with
  | .error e => (c, .error e)
  | .ok none => (c, .ok none)
  | .ok (some r) =>
    match drive (readStep checked x t active stop) visitor (x.frames.items.length + 1) c r with
    | (c, .broke value) => (c, .ok (some (.break value)))
    | (c, .finished (.ok ())) => (c, .ok (some .continue))
    | (c, .finished (.error e)) => (c, .error e)
    | (c, .exhausted) => (c, .error (.fault .bounds))

end

end Index

end Ondas.Ghw
