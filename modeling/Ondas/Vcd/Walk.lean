import Ondas.Library.Machine
import Ondas.Vcd.Tokens

/-!
# The VCD body loop

`walkInner` is the loop that validates a body at opening and replays it for queries. One turn reads
an item (`Tokens.item`) and acts on it (`Walk.act`): a timestamp moves the time, a command opens or
closes a dump block, a comment is kept, a value change is decoded and handed to the visitor. The
loop is an emitting machine (`walkStep`): what it delivers does not depend on the visitor, which can
only stop it, so `walkInner` is the machine driven against the visitor and the progress callback.
-/

namespace Ondas.Vcd

open Library

/-- Where reading can resume: the byte offset of the next word, the current tick, and whether that
offset lies inside a dump block. -/
structure Position where
  offset : Nat
  time : Nat
  block : Bool
  deriving DecidableEq, Repr

/-- One call of the visitor. -/
structure Record where
  index : Nat
  time : Nat
  value : Value
  position : Position
  deriving DecidableEq, Repr

/-- One callback of the loop. -/
inductive Emit where
  | progress
  | record (record : Record)
  deriving DecidableEq, Repr

/-- The fixed data of one walk. `parseReal` is the binary64 parser of the standard library, and
`stop` is the source's `end`. A walk without a selection validates. -/
structure WalkArgs where
  ids : List (List UInt8 × Nat)
  denseIds : List (Option Nat)
  parseReal : List UInt8 → Option UInt64
  stop : Nat
  selected : Option (List Nat)
  comments : Bool
  progressBytes : Option Nat

/-- The variables of `walk_inner`, with the reader fields it moves. -/
structure Walk where
  tokens : Tokens
  lastProgress : Nat
  time : Nat
  span : Option TimeSpan
  block : Bool
  encodings : List Encoding
  seen : List Bool
  comments : List (List UInt8)
  position : Option Position

/-! ## Decoding -/

/-- `identifier_number`: printable codes as base-94 numbers, the first byte least significant. A
number of 2^64 and more does not fit `usize`. -/
def identifierNumber : List UInt8 → Option Nat
  | [] => some 0
  | byte :: rest =>
    -- The source walks the code from its last byte.
    match identifierNumber rest with
    | none => none
    | some number =>
      if 33 ≤ byte && byte ≤ 126 then
        if number * 94 + (byte.toNat - 32) < 2 ^ 64 then some (number * 94 + (byte.toNat - 32))
        else none
      else none

/-- The history index of an identifier code: the direct table first, when there is one. -/
def WalkArgs.lookup (args : WalkArgs) (id : List UInt8) : Option Nat :=
  if args.denseIds.isEmpty then args.ids.lookup id
  else
    match (identifierNumber id).bind fun number => (args.denseIds[number]?).join with
    | some index => some index
    | none => args.ids.lookup id

/-- The value of a run of decimal digits. -/
def decimal (digits : List UInt8) : Nat :=
  digits.foldl (fun n b => n * 10 + (b.toNat - 48)) 0

/-- `integer`: a tick, with an optional all-zero fraction. -/
def integer (bytes : List UInt8) : Except Error Nat :=
  if validUtf8 bytes then
    let whole := bytes.takeWhile (· != 46)
    let fraction := (bytes.dropWhile (· != 46)).tail
    if whole.isEmpty || !whole.all isAsciiDigit || !fraction.all (· == 48) ||
        (bytes.contains 46 && fraction.isEmpty) then
      .error (malformed "nonintegral or invalid time")
    else if decimal whole < 2 ^ 64 then .ok (decimal whole)
    else .error (malformed "time overflow")
  else .error (malformed "invalid time")

/-- `f64::is_finite` of a bit pattern. -/
def isFinite (raw : UInt64) : Bool :=
  (raw >>> 52) &&& 0x7ff != 0x7ff

/-- `real`: a number, where only the named spellings may be infinite or not a number. -/
def real (parseReal : List UInt8 → Option UInt64) (bytes : List UInt8) : Except Error UInt64 :=
  match parseReal bytes with
  | none => .error (malformed "invalid real value")
  | some raw =>
    let named := (bytes.dropWhile fun b => b == 43 || b == 45).map toAsciiLowercase
    if !isFinite raw && !(named ∈ [ascii "nan", ascii "inf", ascii "infinity"]) then
      .error (malformed "real value overflow")
    else .ok raw

/-- The digits a string escape continues with: up to `count` further octal digits. -/
def octalTail : Nat → Nat → List UInt8 → Nat × List UInt8
  | 0, octet, rest => (octet, rest)
  | count + 1, octet, rest =>
    match rest with
    | next :: rest' =>
      if 48 ≤ next && next ≤ 55 then octalTail count (octet * 8 + (next.toNat - 48)) rest'
      else (octet, rest)
    | [] => (octet, rest)

/-- The value of one hexadecimal digit. -/
def hexDigit (b : UInt8) : Option Nat :=
  if isAsciiDigit b then some (b.toNat - 48)
  else if 97 ≤ toAsciiLowercase b && toAsciiLowercase b ≤ 102 then
    some ((toAsciiLowercase b).toNat - 87)
  else none

/-- The escape after a backslash: the byte it stands for and the payload after it. -/
def escape : List UInt8 → Except Error (UInt8 × List UInt8)
  | [] => .error (malformed "truncated string escape")
  | byte :: rest =>
    if byte = 97 then .ok (7, rest)
    else if byte = 98 then .ok (8, rest)
    else if byte = 102 then .ok (12, rest)
    else if byte = 110 then .ok (10, rest)
    else if byte = 114 then .ok (13, rest)
    else if byte = 116 then .ok (9, rest)
    else if byte = 118 then .ok (11, rest)
    else if byte = 92 || byte = 34 || byte = 39 || byte = 63 then .ok (byte, rest)
    else if 48 ≤ byte && byte ≤ 55 then
      match octalTail 2 (byte.toNat - 48) rest with
      | (octet, rest') =>
        if octet < 256 then .ok (UInt8.ofNat octet, rest')
        else .error (malformed "string octal escape overflow")
    else if byte = 120 then
      match rest with
      | high :: low :: rest' =>
        match hexDigit high, hexDigit low with
        | some h, some l => .ok (UInt8.ofNat (h * 16 + l), rest')
        | _, _ => .error (malformed "invalid hex escape")
      | _ => .error (malformed "truncated hex escape")
    else .error (malformed "unknown string escape")

/-- The loop of `decode_string`, with the text decoded so far. The fuel bounds the bytes to come. -/
def decodeLoop (materialize : Bool) (time : Nat) :
    Nat → List UInt8 → List UInt8 → Except Error (List UInt8)
  | _, [], output => .ok output
  | 0, _ :: _, output => .ok output
  | fuel + 1, byte :: rest, output =>
    match if byte = 92 then escape rest else .ok (byte, rest) with
    | .error e => .error e
    | .ok (byte, rest) =>
      if byte < 128 then
        decodeLoop materialize time fuel rest (if materialize then output ++ [byte] else output)
      else .error (.nonAsciiString .vcd "vcd-native" time)

/-- `decode_string`. -/
def decodeString (bytes : List UInt8) (materialize : Bool) (time : Nat) :
    Except Error (List UInt8) :=
  decodeLoop materialize time bytes.length bytes []

/-- The digits of a bit value at its declared width: the low digits of a longer payload, a shorter
one extended on the left. -/
def fitWidth (width : Nat) (payload : List UInt8) : List UInt8 :=
  let first := toAsciiLowercase (payload.headD 0)
  let fill := if first = 48 || first = 49 then 48 else first
  List.replicate (width - payload.length) fill ++ payload.drop (payload.length - width)

/-- The value of one change under its history's encoding. The digits of an unselected bit history
are checked and not built (`none`). -/
def decodeValue (parseReal : List UInt8 → Option UInt64) (tokens : Tokens) (time : Nat)
    (selected : Bool) (encoding : Encoding) (letter : UInt8) (payload : List UInt8) :
    Except Error (Option Value) :=
  let conflict := .error (tokens.error "value conflicts with storage encoding")
  match encoding with
  | .real =>
    if letter = 114 then
      match real parseReal payload with
      | .error e => .error e
      | .ok raw => .ok (some (.real raw))
    else conflict
  | .string =>
    if letter = 115 then
      match decodeString payload selected time with
      | .error e => .error e
      | .ok text => .ok (some (.string text))
    else conflict
  | .bits width =>
    if letter = 114 || letter = 115 then conflict
    else if payload.isEmpty || !fromAscii payload then .error (tokens.error "invalid bit value")
    else .ok (if selected then some (.bits (fitWidth width payload)) else none)
  | .event =>
    if letter = 114 || letter = 115 then conflict
    else if payload.isEmpty || !fromAscii payload then .error (tokens.error "invalid bit value")
    else .ok (some (.event 1))
  | .unsupported =>
    if letter = 114 || letter = 115 then conflict
    else if (payload.isEmpty && letter != 98) || !fromAscii payload then
      .error (tokens.error "invalid bit value")
    else .ok (some (.event 1))

/-! ## One turn of the loop -/

/-- What one turn does: go on, leave the loop, or fail. -/
inductive Turn where
  | next (walk : Walk) (records : List Record)
  | leave (walk : Walk)
  | fail (error : Error)

namespace Walk

/-- A timestamp. One past the end is left unread, with the position before it. -/
def stamp (args : WalkArgs) (offset : Nat) (w : Walk) (digits : List UInt8) : Turn :=
  if w.block then .fail (w.tokens.error "timestamp inside dump block")
  else
    match integer digits with
    | .error e => .fail e
    | .ok next =>
      if next < w.time then .fail (w.tokens.error "backwards timestamp")
      else if args.stop < next then
        .leave { w with position := some ⟨offset, w.time, w.block⟩ }
      else
        .next { w with
          time := next
          span := some ⟨(w.span.map TimeSpan.first).getD next, next⟩ } []

/-- A `$` command: the four dump commands open a block and `$end` closes it. -/
def command (w : Walk) (word : List UInt8) : Turn :=
  if word ∈ [ascii "$dumpvars", ascii "$dumpall", ascii "$dumpoff", ascii "$dumpon"] && !w.block
  then .next { w with block := true } []
  else if word = ascii "$end" && w.block then .next { w with block := false } []
  else .fail (w.tokens.error "unexpected body command")

/-- Validation notes that a history was written, and a declared real whose first value is a string
becomes a string history. -/
def note (args : WalkArgs) (w : Walk) (index : Nat) (letter : UInt8) : Walk :=
  match args.selected with
  | some _ => w
  | none =>
    { w with
      encodings :=
        if letter = 115 && w.encodings.getD index .unsupported == .real &&
            !w.seen.getD index false then
          w.encodings.set index .string
        else w.encodings
      seen := w.seen.set index true }

/-- The history is selected; validation selects nothing. -/
def picks (args : WalkArgs) (index : Nat) : Bool :=
  match args.selected with
  | some selected => selected.contains index
  | none => false

/-- A value change. Event values inside a dump block are snapshots and are not delivered. -/
def value (args : WalkArgs) (offset : Nat) (w : Walk) (letter : UInt8) (payload id : List UInt8) :
    Turn :=
  match args.lookup id with
  | none => .fail (w.tokens.error "unknown identifier code")
  | some index =>
    let w := { w.note args index letter with span := some (w.span.getD ⟨0, 0⟩) }
    let selected := picks args index
    match decodeValue args.parseReal w.tokens w.time selected
        (w.encodings.getD index .unsupported) letter payload with
    | .error e => .fail e
    | .ok none => .next w []
    | .ok (some v) =>
      .next w
        (if selected && !(w.block && v.isEvent) then
          [⟨index, w.time, v, ⟨offset, w.time, w.block⟩⟩]
        else [])

/-- Act on one item; `offset` is where the turn started and `w.tokens` stands after the item. -/
def act (args : WalkArgs) (offset : Nat) (w : Walk) : Item → Turn
  | .stamp digits => w.stamp args offset digits
  | .command word => w.command word
  | .comment text =>
    .next { w with comments := if args.comments then w.comments ++ [text] else w.comments } []
  | .value letter payload id => w.value args offset letter payload id

/-- After the loop: no dump block may stay open, and the position is set unless a timestamp past
the end set it. -/
def finish (w : Walk) : Except Error Walk :=
  if w.block then .error (w.tokens.error "unterminated dump block")
  else .ok { w with position := some (w.position.getD ⟨w.tokens.offset, w.time, w.block⟩) }

/-- The progress callback is due at this turn. -/
def progressDue (args : WalkArgs) (w : Walk) : Bool :=
  match args.progressBytes with
  | some limit => decide (limit ≤ w.tokens.offset - w.lastProgress)
  | none => false

end Walk

/-- The reads and effects of one turn, after the callbacks `marks` it starts with. -/
def walkTurn (args : WalkArgs) (marks : List Emit) (w : Walk) :
    List Emit × Outcome Walk (Except Error Walk) :=
  match w.tokens.item w.block with
  | .error e => (marks, .stop (.error e))
  | .ok (none, tokens) => (marks, .stop (Walk.finish { w with tokens := tokens }))
  | .ok (some item, tokens) =>
    match Walk.act args w.tokens.offset { w with tokens := tokens } item with
    | .next w' records => (marks ++ records.map .record, .next w')
    | .leave w' => (marks, .stop w'.finish)
    | .fail e => (marks, .stop (.error e))

/-- One turn of `walk_inner`: the callbacks it makes and where it leads. -/
def walkStep (args : WalkArgs) (w : Walk) : List Emit × Outcome Walk (Except Error Walk) :=
  if w.progressDue args then
    walkTurn args [.progress] { w with lastProgress := w.tokens.offset }
  else walkTurn args [] w

/-- `walk_inner`, with the visitor and the progress callback as one callback. Each turn takes a byte
of the input, so the fuel suffices (`walkInner_eq`). -/
def walkInner {σ B : Type*} (args : WalkArgs) (callback : σ → Emit → σ × ControlFlow B) (c : σ)
    (w : Walk) : σ × Ending B (Except Error Walk) :=
  drive (walkStep args) callback (w.tokens.input.length + 1) c w

end Ondas.Vcd
