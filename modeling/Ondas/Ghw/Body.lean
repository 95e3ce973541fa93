import Ondas.Ghw.Types
import Ondas.Library.Machine

/-!
# The GHW body walk

`walk` reads the sections of a body one after the other and hands events to a visitor: the scalars
of a list, the end of a list, and the completion of a tick. It is the machine `walkStep` driven
against the visitor. A step reads what lies between two places where the loop of the source could
turn, and each of its emissions carries what the loop returns when the visitor breaks there.

The records of a cycle list are read in two ways. `window` decodes those that the buffered bytes
cover completely, and `cycleRecord` reads one field at a time. `walkStep` takes the way as an
argument: the source tries the window first.
-/

namespace Ondas.Ghw

open Library Wire

/-! ## Events -/

/-- A scalar value as it is stored. -/
inductive Scalar where
  | ordinal (value : UInt8)
  | integer (value : Int)
  | real (bits : UInt64)
  deriving DecidableEq, Repr

/-- The `route` of an event without a dependency range: `NO_ROUTE`. -/
def noRoute : Nat := 2 ^ 32 - 1

/-- The payload of a scalar event. -/
structure ScalarEvent where
  id : Nat
  rank : Nat
  time : Nat
  offset : Nat
  value : Scalar
  cyclic : Bool
  route : Nat
  deriving DecidableEq, Repr

/-- What the walk hands to its visitor. -/
inductive Event where
  | scalar (event : ScalarEvent)
  | listEnd (time : Nat)
  | tick (time : Nat)
  deriving DecidableEq, Repr

/-- `body::scalar`. -/
def scalar (types : Types) (id : Nat) : Read Scalar :=
  match types.scalar id with
  | none => Decoder.fail (malformed "non-scalar body type")
  | some (storage, literals, _) =>
    match storage with
    | .b2 | .e8 => do
      let ordinal ← byte
      ensure (decide (ordinal.toNat < literals.length))
        (malformed "body enum ordinal exceeds base literals")
      pure (.ordinal ordinal)
    | .i32 | .p32 => do
      let value ← sleb 32
      pure (.integer value)
    | .i64 | .p64 => do
      let value ← sleb 64
      pure (.integer value)
    | .f64 => do
      let bits ← realBits
      pure (.real bits)

/-! ## The clock -/

/-- `Clock`: the current and the first time of the body. -/
structure Clock where
  current : Option Int
  first : Option Int
  deriving DecidableEq, Repr

namespace Clock

/-- `Clock::span`. -/
def span (clock : Clock) : Option TimeSpan :=
  match clock.first, clock.current with
  | some first, some current => some ⟨first.toNat, current.toNat⟩
  | _, _ => none

/-- The ticks that end with the current time. -/
def completed (clock : Clock) : List Nat := (clock.current.map Int.toNat).toList

/-- Where entering a time leads. -/
inductive Entry where
  | refused
  | ended (ticks : List Nat)
  | entered (ticks : List Nat) (clock : Clock)

/-- `Clock::enter`: a time that is later than the current one completes it, and ends the walk when
it lies past the end. -/
def enter (clock : Clock) (next : Int) (stop : Nat) : Entry :=
  if next < 0 ∨ (clock.current.any fun previous => decide (next < previous)) then .refused
  else
    let ticks := if clock.current.any fun previous => decide (previous < next) then clock.completed
      else []
    if stop < next.toNat then .ended ticks
    else .entered ticks ⟨some next, some (clock.first.getD next)⟩

end Clock

/-! ## Sections -/

/-- The character at the start of some bytes and their number, by the rules of
`String::from_utf8_lossy`: a maximal part of a sequence that cannot be completed is one U+FFFD. -/
def lossyHead (a : UInt8) (rest : List UInt8) : Char × Nat :=
  let continuation (b : UInt8) : Bool := 0x80 ≤ b && b < 0xc0
  let second (b : UInt8) : Bool :=
    if a = 0xe0 then 0xa0 ≤ b && b < 0xc0 else if a = 0xed then 0x80 ≤ b && b < 0xa0
    else if a = 0xf0 then 0x90 ≤ b && b < 0xc0 else if a = 0xf4 then 0x80 ≤ b && b < 0x90
    else continuation b
  let low (b : UInt8) : Nat := (b &&& 0x3f).toNat
  if a < 0x80 then (Char.ofNat a.toNat, 1)
  else if a < 0xc2 ∨ 0xf5 ≤ a then ('\uFFFD', 1)
  else match rest with
    | [] => ('\uFFFD', 1)
    | b :: rest =>
      if !second b then ('\uFFFD', 1)
      else if a < 0xe0 then (Char.ofNat ((a &&& 0x1f).toNat * 64 + low b), 2)
      else match rest with
        | [] => ('\uFFFD', 2)
        | c :: rest =>
          if !continuation c then ('\uFFFD', 2)
          else if a < 0xf0 then
            (Char.ofNat ((a &&& 0x0f).toNat * 4096 + low b * 64 + low c), 3)
          else match rest with
            | [] => ('\uFFFD', 3)
            | d :: _ =>
              if !continuation d then ('\uFFFD', 3)
              else (Char.ofNat
                ((a &&& 0x07).toNat * 262144 + low b * 4096 + low c * 64 + low d), 4)

/-- `String::from_utf8_lossy`, with fuel for the bytes. -/
def lossyLoop : Nat → List UInt8 → List Char
  | 0, _ => []
  | _ + 1, [] => []
  | fuel + 1, a :: rest =>
    let (c, n) := lossyHead a rest
    c :: lossyLoop fuel (rest.drop (n - 1))

/-- `String::from_utf8_lossy`. -/
def fromUtf8Lossy (bytes : List UInt8) : String := String.ofList (lossyLoop bytes.length bytes)

/-- The sections of a body. -/
inductive Section where
  | snapshot | cycle | directory | tailer
  deriving DecidableEq, Repr

/-- The section of a tag. Only footer sections follow a footer, and the directory comes once. -/
def sectionOf (footer : Bool) (tag : List UInt8) : Read Section :=
  if tag = ascii "SNP\x00" ∨ tag = ascii "CYC\x00" then
    if footer then Decoder.fail (malformed "body section after footer")
    else pure (if tag = ascii "SNP\x00" then .snapshot else .cycle)
  else if tag = ascii "DIR\x00" then
    if footer then Decoder.fail (malformed "duplicate directory") else pure .directory
  else if tag = ascii "TAI\x00" then pure .tailer
  else if tag.getD 3 0 ≠ 0 then Decoder.fail (malformed "invalid body section marker")
  else Decoder.fail (unsupported s!"body section {fromUtf8Lossy (tag.take 3)}")

/-- The tag and the section it starts. -/
def readTag (footer : Bool) : Read Section := do
  let tag ← fixed 4
  sectionOf footer tag

/-- The next section, or nothing at the end of the input. -/
def readSection (footer : Bool) : Read (Option Section) := do
  let eof ← atEof
  if eof then pure none
  else do
    let kind ← readTag footer
    pure (some kind)

/-- `descriptor`: the byte order and the sizes that a footer repeats. -/
def descriptor : Read Unit := do
  let bigEndian ← Decoder.look Wire.bigEndian
  let bytes ← fixed 4
  ensure (bytes == [if bigEndian then 2 else 1, 4, 1, 0]) (unsupported "footer size/order layout")

/-- An entry of the directory. -/
def directoryEntry : Read Unit := do
  let name ← fixed 4
  ensure (name.getD 3 0 == 0 && (name.take 3).all fun b => 65 ≤ b && b ≤ 90)
    (malformed "invalid directory section name")
  let _offset ← u32
  pure ()

/-- The rest of a `DIR` section. -/
def readDirectory : Read Unit := do
  descriptor
  let count ← count "directory entry"
  let left ← Decoder.look left
  ensure (decide (count ≤ left / 8)) (malformed "directory count exceeds remaining input")
  let _entries ← Decoder.times directoryEntry count
  marker "EOD\x00"

/-- The rest of a `TAI` section, which ends the input. -/
def readTailer : Read Unit := do
  descriptor
  let _directory ← u32
  let eof ← atEof
  ensure eof (malformed "data after tailer")

/-! ## Records of a cycle list -/

/-- `i64::MAX`. -/
def i64Max : Int := 2 ^ 63 - 1

/-- The active table: source numbers with their scalar types, by rank. -/
abbrev Active := List (Nat × Nat)

/-- What one record of a cycle list reads as: its rank, the offset of its payload, and its value.
Nothing stands for the end of the list. -/
def cycleRecord (types : Types) (active : Active) (rank : Nat) :
    Read (Option (Nat × Nat × Nat × Scalar)) := do
  let delta ← uleb
  if delta = 0 then pure none
  else do
    ensure (decide (rank + delta ≤ Types.usizeMax)) (malformed "cycle scalar rank overflow")
    match active[rank + delta - 1]? with
    | none => Decoder.fail (malformed "cycle scalar rank exceeds active table")
    | some (id, type) => do
      let offset ← Decoder.look Wire.offset
      let value ← scalar types type
      pure (some (rank + delta, id, offset, value))

/-- `WINDOW_RECORD`: the bytes that one record can occupy. -/
def windowRecord : Nat := 15

/-- `window_uleb`. -/
def windowUleb (bytes : List UInt8) : Option (Nat × Nat) := sliceLeb ulebTurn 5 0 0 bytes

/-- `window_value`. -/
def windowValue (types : Types) (bigEndian : Bool) (id : Nat) (bytes : List UInt8) :
    Option (Scalar × Nat) :=
  match types.scalar id with
  | none => none
  | some (storage, literals, _) =>
    match storage with
    | .b2 | .e8 =>
      match bytes with
      | [] => none
      | ordinal :: _ =>
        if ordinal.toNat < literals.length then some (.ordinal ordinal, 1) else none
    | .i32 | .p32 => (decodeSleb 32 bytes).map fun field => (.integer field.1, field.2)
    | .i64 | .p64 => (decodeSleb 64 bytes).map fun field => (.integer field.1, field.2)
    | .f64 =>
      if 8 ≤ bytes.length then
        some (.real (UInt64.ofNat (fromBytes bigEndian (bytes.take 8))), 8)
      else none

/-- One record of the bulk loop: its rank, its source number, where its payload starts, its value
and its length. -/
def windowField (types : Types) (active : Active) (bigEndian : Bool) (rank : Nat)
    (bytes : List UInt8) : Option (Nat × Nat × Nat × Scalar × Nat) :=
  match windowUleb bytes with
  | none => none
  | some (delta, width) =>
    if delta = 0 then none
    else if Types.usizeMax < rank + delta then none
    else
      match active[rank + delta - 1]? with
      | none => none
      | some (id, type) =>
        match windowValue types bigEndian type (bytes.drop width) with
        | none => none
        | some (value, length) => some (rank + delta, id, width, value, width + length)

/-! ## The walk -/

/-- What the walk is called with, apart from its input and its visitor. -/
structure Body where
  types : Types
  active : Active
  stop : Nat

/-- Where the walk stands: before a section, in a snapshot or a cycle list, after a cycle list, or
in a footer section. -/
inductive Phase where
  | «section»
  | snapshot (time : Int) (rank : Nat)
  | cycle (time : Int) (rank : Nat)
  | increment (time : Int)
  | directory
  | tailer
  deriving DecidableEq, Repr

/-- The state of the walk. -/
structure Walk where
  wire : Wire
  clock : Clock
  footer : Bool
  phase : Phase

/-- An event, with the offset and the span that the walk returns when the visitor breaks at it. -/
structure Emission where
  event : Event
  offset : Nat
  span : Option TimeSpan
  deriving DecidableEq, Repr

/-- How the walk ends when the visitor does not break. -/
abbrev Walked := Except Error (Option TimeSpan) × Wire

namespace Walk

/-- An event handed over at the current position. -/
def emit (w : Walk) (event : Event) : Emission := ⟨event, w.wire.offset, w.clock.span⟩

/-- Continue with what a read returns, or end with its error. -/
def after {α : Type} (w : Walk) (x : Read α)
    (next : α → Walk → List Emission × Outcome Walk Walked) :
    List Emission × Outcome Walk Walked :=
  match x w.wire with
  | (.error e, wire) => ([], .stop (.error e, wire))
  | (.ok a, wire) => next a { w with wire := wire }

/-- The walk ends here, after some events. -/
def finish (w : Walk) (events : List Event) : List Emission × Outcome Walk Walked :=
  (events.map w.emit, .stop (.ok w.clock.span, w.wire))

/-- Enter a time, and go on in a phase of that time. -/
def enter (w : Walk) (stop : Nat) (time : Int) (phase : Phase) :
    List Emission × Outcome Walk Walked :=
  match w.clock.enter time stop with
  | .refused => ([], .stop (.error (malformed "negative or backward body time" w.wire), w.wire))
  | .ended ticks => w.finish (ticks.map Event.tick)
  | .entered ticks clock =>
    (ticks.map fun time => w.emit (.tick time), .next { w with clock := clock, phase := phase })

end Walk

/-- The records of the bulk loop in the buffered bytes, from a position and a rank on, with the
position and the rank it stops at. `base` is the offset of the buffer. -/
def window (b : Body) (bigEndian : Bool) (time : Int) (span : Option TimeSpan) (base : Nat)
    (bytes : List UInt8) : Nat → Nat → Nat → List Emission × Nat × Nat
  | 0, consumed, rank => ([], consumed, rank)
  | fuel + 1, consumed, rank =>
    if bytes.length - consumed < windowRecord then ([], consumed, rank)
    else
      match windowField b.types b.active bigEndian rank (bytes.drop consumed) with
      | none => ([], consumed, rank)
      | some (next, id, width, value, length) =>
        let (emissions, ends) :=
          window b bigEndian time span base bytes fuel (consumed + length) next
        (⟨.scalar ⟨id, next - 1, time.toNat, base + (consumed + width), value, true, noRoute⟩,
          base + (consumed + length), span⟩ :: emissions, ends)

/-- One record of a cycle list by the checked reads, or the end of the list. -/
def cycleStep (b : Body) (w : Walk) (time : Int) (rank : Nat) :
    List Emission × Outcome Walk Walked :=
  w.after (cycleRecord b.types b.active rank) fun record w =>
    match record with
    | none => ([w.emit (.listEnd time.toNat)], .next { w with phase := .increment time })
    | some (next, id, offset, value) =>
      ([w.emit (.scalar ⟨id, next - 1, time.toNat, offset, value, true, noRoute⟩)],
        .next { w with phase := .cycle time next })

/-- One turn in a cycle list: the records of the window, or one record when it covers none. -/
def bulkStep (b : Body) (w : Walk) (time : Int) (rank : Nat) :
    List Emission × Outcome Walk Walked :=
  w.after fillBuf fun bytes v =>
    let (emissions, consumed, next) := window b w.wire.bigEndian time w.clock.span w.wire.offset
      bytes bytes.length 0 rank
    v.after (consume consumed) fun _ v =>
      if consumed ≠ 0 then (emissions, .next { v with phase := .cycle time next })
      else cycleStep b v time rank

/-- One step of the walk. With `bulk` the records of a cycle list are first looked for in the
window. -/
def walkStep (b : Body) (bulk : Bool) (w : Walk) : List Emission × Outcome Walk Walked :=
  match w.phase with
  | .section =>
    w.after (readSection w.footer) fun kind w =>
      match kind with
      | none => w.finish (if w.footer then [] else w.clock.completed.map Event.tick)
      | some .snapshot =>
        w.after (do
          zeros
          i64) fun time w => w.enter b.stop time (.snapshot time 0)
      | some .cycle => w.after i64 fun time w => w.enter b.stop time (.cycle time 0)
      | some .directory =>
        (w.clock.completed.map fun time => w.emit (.tick time),
          .next { w with footer := true, phase := .directory })
      | some .tailer =>
        (if w.footer then [] else w.clock.completed.map fun time => w.emit (.tick time),
          .next { w with footer := true, phase := .tailer })
  | .snapshot time rank =>
    match b.active[rank]? with
    | some (id, type) =>
      w.after (scalar b.types type) fun value v =>
        ([v.emit (.scalar ⟨id, rank, time.toNat, w.wire.offset, value, false, noRoute⟩)],
          .next { v with phase := .snapshot time (rank + 1) })
    | none =>
      w.after (marker "ESN\x00") fun _ w =>
        ([w.emit (.listEnd time.toNat)], .next { w with phase := .section })
  | .cycle time rank => if bulk then bulkStep b w time rank else cycleStep b w time rank
  | .increment time =>
    w.after (sleb 64) fun delta w =>
      if delta = -1 then w.after (marker "ECY\x00") fun _ w =>
        ([], .next { w with phase := .section })
      else if delta < 0 then
        ([], .stop (.error (malformed "negative cycle time increment" w.wire), w.wire))
      else if i64Max < time + delta then
        ([], .stop (.error (malformed "cycle time overflow" w.wire), w.wire))
      else w.enter b.stop (time + delta) (.cycle (time + delta) 0)
  | .directory => w.after readDirectory fun _ w => ([], .next { w with phase := .section })
  | .tailer => w.after readTailer fun _ w => w.finish []

/-- The start of a walk. -/
def Walk.start (wire : Wire) : Walk := ⟨wire, ⟨none, none⟩, false, .section⟩

section
variable {σ B : Type}

/-- The visitor of a walk as the callback of its machine: a break keeps where the walk stands. -/
def onEvent (visitor : σ → Event → σ × ControlFlow B) (c : σ) (e : Emission) :
    σ × ControlFlow (B × Nat × Option TimeSpan) :=
  match visitor c e.event with
  | (c, .continue) => (c, .continue)
  | (c, .break value) => (c, .break (value, e.offset, e.span))

/-- `body::walk`: the visitor's state, the outcome and the final `wire.offset`. Every step reads a
byte at least, so the bytes left are fuel enough (`walk_eq`). -/
def walk (b : Body) (bulk : Bool) (visitor : σ → Event → σ × ControlFlow B) (c : σ) (wire : Wire) :
    σ × Except Error (ControlFlow B × Option TimeSpan) × Nat :=
  match drive (walkStep b bulk) (onEvent visitor) (wire.rest.length + 1) c (Walk.start wire) with
  | (c, .broke (value, offset, span)) => (c, .ok (.break value, span), offset)
  | (c, .finished (.ok span, wire)) => (c, .ok (.continue, span), wire.offset)
  | (c, .finished (.error e, wire)) => (c, .error e, wire.offset)
  | (c, .exhausted) => (c, .error (malformed "truncated field" wire), wire.offset)

end

end Ondas.Ghw
