import Ondas.Ghw.Body
import Ondas.Library.Vec

/-!
# The position index

When a file is opened, the walk over its body hands the position of every scalar to an index. The
index has a frame for each list with records, and for each group of ranks the frames that have
records of it, with the offset of the first one and its rank in the group. `Index.read` goes through
the groups of a query forward with `advance`, and does not decode the rest of the body.

The numbers of the frames of a group are stored as the first one and then as runs of equal
differences, and the offsets as differences. All arrays of the index share one budget, which is kept
by hand: a vector only grows by `growFrames` and `growStream`, which add the capacity to
`allocated`.

An operation returns false when the index does not fit, and `open` drops it then (`visit`,
`complete`). A `Fault` is what must not happen. A panic of the source is one of these, and so is an
append that the accounts do not know of.
-/

namespace Ondas.Ghw

open Library

/-- What must not happen in an index. -/
inductive Index.Fault where
  /-- More is allocated than the limit. -/
  | budget
  /-- An append needs more capacity than is reserved. -/
  | capacity
  /-- A position does not fit into its field. -/
  | truncation
  /-- A sum or a difference overflows, in a build that checks it. -/
  | arithmetic
  /-- An index is out of bounds. -/
  | bounds
  deriving DecidableEq, Repr

/-- `INDEX_BYTES`. -/
def indexBytes : Nat := 512 * 1024 * 1024

/-- `RANKS_PER_GROUP`. -/
def ranksPerGroup : Nat := 64

/-- `FRAME_CHUNK`. -/
def frameChunk : Nat := 64

/-- `STREAM_START`. -/
def streamStart : Nat := 16

/-- `NO_GROUP`. -/
def noGroup : Nat := 2 ^ 64 - 1

/-- `NO_FRAME`. -/
def noFrame : Nat := 2 ^ 32 - 1

/-- The size of a `Vec`. -/
def vecBytes : Nat := 24

/-- The size of a `Frame`. -/
def frameBytes : Nat := 16

/-- `GROUPS_PER_ELEMENT_BYTES`. -/
def groupsPerElementBytes : Nat := 2 * vecBytes + 8 + 3 * 4

/-- `Frame`: a source list that was validated. -/
structure Frame where
  time : Nat
  cyclic : Bool
  deriving DecidableEq, Repr

/-- `Index`. What the allocator answers is part of it. -/
structure Index where
  frames : Vec Frame
  ids : Vec (Vec UInt8)
  offs : Vec (Vec UInt8)
  limit : Nat
  allocated : Nat
  isOpen : Bool
  current : Nat
  lastGroup : Nat
  lastFrame : Vec Nat
  lastOffset : Vec Nat
  pendingDelta : Vec Nat
  pendingRun : Vec Nat
  answers : Allocator

namespace Index

/-! ## Words -/

/-- The loop of `encode`, with the turns left. -/
def encodeLoop : Nat → Nat → List UInt8
  | 0, value => [UInt8.ofNat value]
  | left + 1, value =>
    if 0x80 ≤ value then (UInt8.ofNat value ||| 0x80) :: encodeLoop left (value >>> 7)
    else [UInt8.ofNat value]

/-- `encode`. A word of 64 bits takes no more than ten bytes. -/
def encode (value : Nat) : List UInt8 := encodeLoop 9 value

/-- The loop of `decode`, with the turns left. -/
def decodeLoop (bytes : List UInt8) : Nat → Nat → Nat → Nat → Option (Nat × Nat)
  | 0, _, _, _ => none
  | left + 1, group, position, value =>
    match bytes[position]? with
    | none => none
    | some byte =>
      let value := value ||| (((byte &&& 0x7f).toNat <<< (7 * group)) % 2 ^ 64)
      if byte &&& 0x80 = 0 then some (value, position + 1)
      else decodeLoop bytes left (group + 1) (position + 1) value

/-- `decode`: the word at a position and the position after it. -/
def decode (bytes : List UInt8) (position : Nat) : Option (Nat × Nat) :=
  decodeLoop bytes 10 0 position 0

/-- The item at an index. -/
def item {α : Type} (items : List α) (i : Nat) : Except Fault α :=
  match items[i]? with
  | none => .error .bounds
  | some a => .ok a

/-- Items that go into reserved capacity. -/
def append {α : Type} (v : Vec α) (more : List α) : Except Fault (Vec α) :=
  match v.append more with
  | none => .error .capacity
  | some v => .ok v

/-- A position as a field of 32 bits. -/
def narrow (position : Nat) : Except Fault Nat :=
  if position < 2 ^ 32 then .ok position else .error .truncation

/-- A sum of words. It wraps in a build without checks. -/
def add (checked : Bool) (bits a b : Nat) : Except Fault Nat :=
  if a + b < 2 ^ bits then .ok (a + b)
  else if checked then .error .arithmetic else .ok ((a + b) % 2 ^ bits)

/-- A difference of words. It wraps in a build without checks. -/
def sub (checked : Bool) (bits a b : Nat) : Except Fault Nat :=
  if b ≤ a then .ok (a - b)
  else if checked then .error .arithmetic else .ok ((a + 2 ^ bits - b) % 2 ^ bits)

/-! ## Capacities -/

/-- `Index::retained`. -/
def retained (x : Index) : Nat :=
  x.frames.capacity * frameBytes + (x.ids.capacity + x.offs.capacity) * vecBytes +
    (x.ids.items.map Vec.capacity).sum + (x.offs.items.map Vec.capacity).sum

/-- The vectors of an index without the items of groups, when all are reserved. -/
def reserveAll (count limit : Nat) (answers : Allocator) : Option Index := do
  let ids ← Vec.empty.reserve count (answers 0)
  let offs ← Vec.empty.reserve count (answers 1)
  let lastFrame ← Vec.empty.reserve count (answers 2)
  let lastOffset ← Vec.empty.reserve count (answers 3)
  let pendingDelta ← Vec.empty.reserve count (answers 4)
  let pendingRun ← Vec.empty.reserve count (answers 5)
  let allocated := (ids.capacity + offs.capacity) * vecBytes +
    (lastFrame.capacity + pendingDelta.capacity + pendingRun.capacity) * 4 + lastOffset.capacity * 8
  if limit < allocated then none
  else some ⟨Vec.empty, ids, offs, limit, allocated, false, 0, noGroup, lastFrame, lastOffset,
    pendingDelta, pendingRun, answers.after 6⟩

/-- `Index::with_limit`. -/
def withLimit (active limit : Nat) (answers : Allocator) : Except Fault (Option Index) :=
  let count := (active + (ranksPerGroup - 1)) / ranksPerGroup
  if 2 ^ 64 ≤ count * groupsPerElementBytes ∨ limit < count * groupsPerElementBytes then .ok none
  else
    match reserveAll count limit answers with
    | none => .ok none
    | some x => do
      let ids ← append x.ids (List.replicate count Vec.empty)
      let offs ← append x.offs (List.replicate count Vec.empty)
      let lastFrame ← append x.lastFrame (List.replicate count noFrame)
      let lastOffset ← append x.lastOffset (List.replicate count 0)
      let pendingDelta ← append x.pendingDelta (List.replicate count 0)
      let pendingRun ← append x.pendingRun (List.replicate count 0)
      pure (some { x with ids, offs, lastFrame, lastOffset, pendingDelta, pendingRun })

/-- `limit - allocated`. -/
def remaining (limit allocated : Nat) : Except Fault Nat :=
  if allocated ≤ limit then .ok (limit - allocated) else .error .budget

/-- `Index::grow_frames`. -/
def growFrames (x : Index) : Except Fault (Bool × Index) :=
  if x.frames.items.length < x.frames.capacity then .ok (true, x)
  else do
    let remaining ← remaining x.limit x.allocated
    let chunk :=
      if x.frames.items.isEmpty then 1 else max ((x.frames.capacity + 1) / 2) frameChunk
    let chunk := min chunk (remaining / frameBytes)
    if chunk = 0 then pure (false, x)
    else
      match x.frames.reserve chunk (x.answers 0) with
      | none => pure (false, { x with answers := x.answers.after 1 })
      | some frames =>
        let allocated := x.allocated + (frames.capacity - x.frames.capacity) * frameBytes
        pure (decide (allocated ≤ x.limit),
          { x with frames, allocated, answers := x.answers.after 1 })

/-- A stream that `Index::grow_stream` grew, with the references that it has changed. -/
structure Grown where
  stream : Vec UInt8
  allocated : Nat
  answers : Allocator

/-- `Index::grow_stream`. -/
def growStream (stream : Vec UInt8) (needed limit allocated : Nat) (answers : Allocator) :
    Except Fault (Bool × Grown) :=
  if stream.items.length + needed ≤ stream.capacity then .ok (true, ⟨stream, allocated, answers⟩)
  else do
    let remaining ← remaining limit allocated
    if remaining < needed then pure (false, ⟨stream, allocated, answers⟩)
    else
      let chunk := min (max (max needed ((stream.capacity + 1) / 2)) streamStart) remaining
      match stream.reserve chunk (answers 0) with
      | none => pure (false, ⟨stream, allocated, answers.after 1⟩)
      | some grown =>
        let allocated := allocated + (grown.capacity - stream.capacity)
        pure (decide (allocated ≤ limit), ⟨grown, allocated, answers.after 1⟩)

/-- `Index::grow_stream` of the frame numbers of a group. -/
def growIds (group needed : Nat) (x : Index) : Except Fault (Bool × Index) := do
  let stream ← item x.ids.items group
  let (grown, out) ← growStream stream needed x.limit x.allocated x.answers
  pure (grown,
    { x with
      ids := x.ids.set group out.stream, allocated := out.allocated, answers := out.answers })

/-- `Index::grow_stream` of the positions of a group. -/
def growOffs (group needed : Nat) (x : Index) : Except Fault (Bool × Index) := do
  let stream ← item x.offs.items group
  let (grown, out) ← growStream stream needed x.limit x.allocated x.answers
  pure (grown,
    { x with
      offs := x.offs.set group out.stream, allocated := out.allocated, answers := out.answers })

/-- Append to the frame numbers of a group. -/
def extendIds (group : Nat) (bytes : List UInt8) (x : Index) : Except Fault Index := do
  let stream ← item x.ids.items group
  let stream ← append stream bytes
  pure { x with ids := x.ids.set group stream }

/-- Append to the positions of a group. -/
def extendOffs (group : Nat) (bytes : List UInt8) (x : Index) : Except Fault Index := do
  let stream ← item x.offs.items group
  let stream ← append stream bytes
  pure { x with offs := x.offs.set group stream }

/-! ## Recording -/

/-- `Index::flush`. Its buffer has ten bytes. -/
def flush (group : Nat) (x : Index) : Except Fault (Bool × Index) := do
  let run ← item x.pendingRun.items group
  if run = 0 then pure (true, x)
  else
    let delta ← item x.pendingDelta.items group
    let bytes := encode delta ++ encode run
    if 10 < bytes.length then throw .bounds
    else
      let (grown, x) ← growIds group bytes.length x
      if grown then
        let x ← extendIds group bytes x
        pure (true, { x with pendingRun := x.pendingRun.set group 0 })
      else pure (false, x)

/-- The first half of `Index::record`: the frame number of a group, as the bytes to append or in the
run that is pending. -/
def recordFrame (checked : Bool) (group : Nat) (x : Index) :
    Except Fault (Bool × List UInt8 × Index) := do
  let last ← item x.lastFrame.items group
  if last = noFrame then pure (true, encode x.current, x)
  else
    let delta ← sub checked 32 x.current last
    let pending ← item x.pendingDelta.items group
    if delta = pending then
      let run ← item x.pendingRun.items group
      let run ← add checked 32 run 1
      pure (true, [], { x with pendingRun := x.pendingRun.set group run })
    else
      let (flushed, x) ← x.flush group
      if flushed then
        pure (true, [], { x with
          pendingDelta := x.pendingDelta.set group delta, pendingRun := x.pendingRun.set group 1 })
      else pure (false, [], x)

/-- `Index::record`. -/
def record (checked : Bool) (group rank offset : Nat) (x : Index) :
    Except Fault (Bool × Index) := do
  let (recorded, bytes, x) ← x.recordFrame checked group
  if recorded then
    let last ← item x.lastOffset.items group
    let delta ← sub checked 64 offset last
    let position := encode delta ++ encode (rank % ranksPerGroup)
    let (grown, x) ← x.growOffs group position.length
    if grown then
      let (grown, x) ← x.growIds group bytes.length
      if grown then
        let x ← x.extendOffs group position
        let x ← x.extendIds group bytes
        pure (true, { x with
          lastFrame := x.lastFrame.set group x.current, lastOffset :=
          x.lastOffset.set group offset })
      else pure (false, x)
    else pure (false, x)
  else pure (false, x)

/-- The end of `Index::push`, in an open frame. -/
def enter (checked : Bool) (rank offset : Nat) (x : Index) : Except Fault (Bool × Index) :=
  let group := rank / ranksPerGroup
  if group = x.lastGroup then pure (true, x)
  else record checked group rank offset { x with lastGroup := group }

/-- `Index::push`. -/
def push (checked : Bool) (rank time offset : Nat) (cyclic : Bool) (x : Index) :
    Except Fault (Bool × Index) :=
  if x.lastFrame.items.isEmpty then pure (false, x)
  else if x.isOpen then x.enter checked rank offset
  else do
    let (grown, x) ← x.growFrames
    if grown then
      let current := x.frames.items.length
      if 2 ^ 32 ≤ current then pure (false, x)
      else
        let frames ← append x.frames [⟨time, cyclic⟩]
        enter checked rank offset { x with frames, current, isOpen := true, lastGroup := noGroup }
    else pure (false, x)

/-- `Index::list_end`. -/
def listEnd (x : Index) : Index := { x with isOpen := false, lastGroup := noGroup }

/-- The loop of `Index::finish`. -/
def flushAll : List Nat → Index → Except Fault (Bool × Index)
  | [], x => pure (true, x)
  | group :: groups, x => do
    let (flushed, x) ← x.flush group
    if flushed then flushAll groups x else pure (false, x)

/-- `Index::finish`. -/
def finish (x : Index) : Except Fault (Bool × Index) :=
  if x.lastFrame.items.isEmpty then pure (true, x)
  else do
    let (flushed, x) ← flushAll (List.range x.ids.items.length) x
    if flushed then
      let x := { x with
        lastFrame := Vec.empty, lastOffset := Vec.empty, pendingDelta := Vec.empty,
        pendingRun := Vec.empty }
      pure (true, { x with allocated := x.retained })
    else pure (false, x)

/-! ## The owner -/

/-- The visitor of `Reader::open`, which drops an index that returns false. -/
def visit (checked : Bool) (event : Event) : Option Index → Except Fault (Option Index)
  | none => pure none
  | some x =>
    match event with
    | .scalar event => do
      let (kept, x) ← x.push checked event.rank event.time event.offset event.cyclic
      pure (if kept then some x else none)
    | .listEnd _ => pure (some x.listEnd)
    | .tick _ => pure (some x)

/-- The index after the events of a body. -/
def visitAll (checked : Bool) : List Event → Option Index → Except Fault (Option Index)
  | [], positions => pure positions
  | event :: events, positions => do
    let positions ← visit checked event positions
    visitAll checked events positions

/-- The end of `Reader::open`, which drops an index that is not complete. -/
def complete : Option Index → Except Fault (Option Index)
  | none => pure none
  | some x => do
    let (kept, x) ← x.finish
    pure (if kept then some x else none)

/-! ## Reading -/

/-- `Cursor`, with what `Index::advance` reads and writes. -/
structure Cursor where
  group : Nat
  ids : Nat
  offs : Nat
  started : Bool
  frame : Nat
  delta : Nat
  remaining : Nat
  offset : Nat
  first : Nat
  deriving DecidableEq, Repr

/-- A cursor that is not started. -/
def Cursor.fresh (group : Nat) : Cursor := ⟨group, 0, 0, false, 0, 0, 0, 0, 0⟩

/-- The first half of `Index::advance`: the next frame number, and the position after it. Nothing is
returned for false, after which no caller reads the cursor. -/
def nextFrame (checked : Bool) (ids : List UInt8) (c : Cursor) :
    Except Fault (Option (Cursor × Nat)) :=
  if c.started then
    if 0 < c.remaining then do
      let frame ← add checked 32 c.frame c.delta
      pure (some ({ c with remaining := c.remaining - 1, frame }, c.ids))
    else if ids.length ≤ c.ids then pure none
    else
      match decode ids c.ids with
      | none => pure none
      | some (delta, position) =>
        match decode ids position with
        | none => pure none
        | some (run, position) =>
          if 2 ^ 32 ≤ delta ∨ 2 ^ 32 ≤ run then pure none
          else if run = 0 then pure none
          else do
            let frame ← add checked 32 c.frame delta
            pure (some ({ c with delta, remaining := run - 1, frame }, position))
  else
    match decode ids c.ids with
    | none => pure none
    | some (first, position) =>
      if 2 ^ 32 ≤ first then pure none
      else pure (some ({ c with frame := first, started := true }, position))

/-- The second half of `Index::advance`: the next position. -/
def nextPosition (checked : Bool) (offs : List UInt8) (c : Cursor) :
    Except Fault (Option Cursor) :=
  if offs.length ≤ c.offs then pure none
  else
    match decode offs c.offs with
    | none => pure none
    | some (delta, position) =>
      match decode offs position with
      | none => pure none
      | some (first, position) => do
        let offset ← add checked 64 c.offset delta
        let offs ← narrow position
        pure (some { c with offset, first, offs })

/-- `Index::advance`. -/
def advance (checked : Bool) (x : Index) (c : Cursor) : Except Fault (Option Cursor) := do
  let ids ← item x.ids.items c.group
  let next ← nextFrame checked ids.items c
  match next with
  | none => pure none
  | some (c, position) => do
    let ids ← narrow position
    let offs ← item x.offs.items c.group
    nextPosition checked offs.items { c with ids }

/-- What a cursor gives from here on until it returns false, in no more than the calls allowed. -/
def positionsFrom (checked : Bool) (x : Index) : Nat → Cursor →
    Except Fault (Option (List (Nat × Nat × Nat)))
  | 0, _ => pure none
  | calls + 1, c => do
    let next ← x.advance checked c
    match next with
    | none => pure (some [])
    | some c => do
      let rest ← positionsFrom checked x calls c
      pure (rest.map fun rest => (c.frame, c.offset, c.first) :: rest)

end Index

end Ondas.Ghw
