import Ondas.Library.Decoder
import Ondas.Query.Slot

/-!
# The native WLF owner

The WLF worker keeps every object of the vendor library on one thread. What the operating system and
the library answer is not known to it, so every answer is that of a call with a number (`Sdk`): a
statement about every `Sdk` is one about every sequence of answers. An owner is what the library
holds for one open file: the declarations, which do not change, and the records that its traversal
has not handed over yet. A handle is an owner with the identity of the file it was opened on and a
flag that any failure clears. `Owner.failures` counts these failures and nothing reads it.
-/

namespace Ondas.Wlf

open Library

/-! ## What the environment answers -/

/-- The bytes of a path. -/
abbrev Path := List UInt8

/-- A native text: a null pointer or its bytes. -/
abbrev Text := Option (List UInt8)

/-- `NativeMetadata`: the light identity of a regular file. -/
structure NativeMetadata where
  dev : Nat
  ino : Nat
  size : Nat
  mtime : Int
  mtimeNsec : Int
  ctime : Int
  ctimeNsec : Int
  deriving DecidableEq, Repr

/-- `NativeIdentity`: the full identity of a regular file. -/
structure NativeIdentity where
  metadata : NativeMetadata
  digest : List UInt8
  deriving DecidableEq, Repr

/-- `Meta`: the native header. -/
structure Meta where
  first : Nat
  last : Nat
  resolution : Nat
  writer : Text
  deriving DecidableEq, Repr

/-- `NativeDeclaration`, with the variants that `ondas_wlf_enum_variant` gives for it. -/
structure NativeDeclaration where
  id : Int
  parent : Nat
  entry : Nat
  encoding : Nat
  width : Nat
  direction : Nat
  isConstant : Nat
  hasRange : Nat
  signedness : Nat
  logicDomain : Nat
  msb : Int
  lsb : Int
  name : Text
  kind : Text
  definition : Text
  verilogName : Nat
  arrayBaseLen : Nat
  variants : List (Text × Text)
  deriving DecidableEq, Repr

/-- `NativeRecord`: a record that a traversal hands over. -/
structure NativeRecord where
  selection : Nat
  tick : Nat
  occurrences : Nat
  data : Text
  len : Nat
  realBits : UInt64
  deriving DecidableEq, Repr

/-- A negative status code, with the text of the error buffer. -/
abbrev NativeFailure := Int × String

/-- The answers of the operating system and of the vendor library, by the number of the call. -/
structure Sdk where
  /-- `std::fs::metadata` of a path that names a regular file. -/
  stat : Nat → Path → Option NativeMetadata
  /-- Opening a path for reading. -/
  openFile : Nat → Path → Bool
  /-- The metadata of the opened file, when it is a regular one. -/
  fstat : Nat → Option NativeMetadata
  /-- Reading at most so many bytes of the opened file. -/
  read : Nat → Nat → Option (List UInt8)
  /-- SHA-256. -/
  digest : List UInt8 → List UInt8
  /-- `ondas_wlf_open`: the header and the declarations behind the pointer it returns, which may be
  null. -/
  openOwner : Nat → Path → Path → Bool →
    Except NativeFailure (Option (Meta × List NativeDeclaration))
  /-- `ondas_wlf_begin` and `ondas_wlf_begin_point` on a file: the records that follow. -/
  begin : Nat → Path → List Nat → Nat → Nat → Bool → Except NativeFailure (List NativeRecord)
  /-- `ondas_wlf_point_start`, with nothing for the code 0. -/
  pointStart : Nat → Nat → Nat → Except NativeFailure (Option Nat)
  /-- When a call of `ondas_wlf_next` fails. -/
  next : Nat → Option NativeFailure
  /-- `ondas_wlf_batch_end` before the records that are left. -/
  batchEnd : Nat → List NativeRecord → Nat
  /-- `ondas_wlf_park`. -/
  park : Nat → Bool

/-- `backend_error`. -/
def backendError (message : String) : Error := .backend "wlf-lib" "access" message

/-- `status`: the error of a negative code. -/
def status (failure : NativeFailure) (operation : String) : Error :=
  if failure.1 = -2 then .malformed .wlf "wlf-lib" failure.2
  else if failure.1 = -3 then .backendUnavailable "wlf-lib" failure.2
  else .backend "wlf-lib" operation failure.2

/-- `string`: the text behind a pointer. -/
def string (text : Text) : Except Error (Option String) :=
  match text with
  | none => .ok none
  | some bytes =>
    match String.fromUTF8? ⟨bytes.toArray⟩ with
    | some text => .ok (some text)
    | none => .error (backendError "non-UTF-8 WLF declaration or metadata text")

/-! ## Owners and handles -/

/-- A native owner: the file it was opened on, what it declares, and the records of its traversal
that are left. -/
structure Owner where
  path : Path
  header : Meta
  declarations : List NativeDeclaration
  traversal : List NativeRecord
  failures : Nat
  deriving DecidableEq, Repr

/-- `Handle`. -/
structure Handle where
  owner : Owner
  identity : Option NativeIdentity
  reusable : Bool
  deriving DecidableEq, Repr

namespace Handle

/-- `Handle::taint`. -/
def taint (handle : Handle) : Handle := { handle with reusable := false }

/-- A native or decode call on the handle failed. -/
def fault (handle : Handle) : Handle :=
  { handle with owner := { handle.owner with failures := handle.owner.failures + 1 } }

/-- The traversal of the handle. -/
def traverse (handle : Handle) (records : List NativeRecord) : Handle :=
  { handle with owner := { handle.owner with traversal := records } }

end Handle

/-- A handle, and the number of the next call. -/
structure Live where
  handle : Handle
  calls : Nat

/-- What is done with a handle. -/
abbrev OnHandle (α : Type) := Decoder Live Error α

/-- `begin_native`. -/
def beginNative (sdk : Sdk) (indices : List Nat) (start stop : Nat) (point : Bool) :
    OnHandle Unit := fun live =>
  match sdk.begin live.calls live.handle.owner.path indices start stop point with
  | .ok records => (.ok (), ⟨live.handle.traverse records, live.calls + 1⟩)
  | .error failure =>
    (.error (status failure "begin read"),
      ⟨((live.handle.traverse []).fault).taint, live.calls + 1⟩)

/-- `ondas_wlf_next` with its status: the next record, or nothing at the end. -/
def nextNative (sdk : Sdk) (operation : String) : OnHandle (Option NativeRecord) := fun live =>
  match sdk.next live.calls with
  | some failure => (.error (status failure operation), ⟨live.handle.fault, live.calls + 1⟩)
  | none =>
    match live.handle.owner.traversal with
    | [] => (.ok none, { live with calls := live.calls + 1 })
    | record :: rest => (.ok (some record), ⟨live.handle.traverse rest, live.calls + 1⟩)

/-- `ondas_wlf_batch_end`. -/
def batchEndNative (sdk : Sdk) : OnHandle Nat := fun live =>
  (.ok (sdk.batchEnd live.calls live.handle.owner.traversal), { live with calls := live.calls + 1 })

/-- `ondas_wlf_point_start` with its status. It ends the traversal. -/
def pointStartNative (sdk : Sdk) (index target : Nat) : OnHandle (Option Nat) := fun live =>
  match sdk.pointStart live.calls index target with
  | .ok start => (.ok start, ⟨live.handle.traverse [], live.calls + 1⟩)
  | .error failure =>
    (.error (status failure "point start hint"),
      ⟨(live.handle.traverse []).fault, live.calls + 1⟩)

/-! ## Records -/

/-- `Record`. -/
structure Record where
  selection : Nat
  tick : Nat
  value : Value
  deriving DecidableEq, Repr

/-- `isize::MAX`. -/
def isizeMax : Nat := 2 ^ 63 - 1

/-- The value of a record, by the encoding of its selection. -/
def recordValue (out : NativeRecord) (encoding : Encoding) : Except Error Value :=
  match encoding with
  | .bits width =>
    match out.data with
    | none => .error (backendError "invalid WLF bit buffer")
    | some data =>
      if out.len ≠ width then .error (backendError "invalid WLF bit buffer")
      else .ok (Value.toOwned (.bits (data.take out.len)))
  | .real => .ok (.real out.realBits)
  | .string =>
    if isizeMax < out.len ∨ (out.len ≠ 0 ∧ out.data = none) then
      .error (backendError "invalid WLF string buffer")
    else
      let bytes := (out.data.getD []).take out.len
      if bytes.all (· < 128) then .ok (.string bytes)
      else .error (.nonAsciiString .wlf "wlf-lib" out.tick)
  | .event =>
    if 0 < out.occurrences then .ok (.event out.occurrences)
    else .error (backendError "invalid WLF value descriptor")
  | .unsupported => .error (backendError "invalid WLF value descriptor")

/-- `owned_record`. -/
def ownedRecord (out : NativeRecord) (encodings : List Encoding) : Except Error Record :=
  match encodings[out.selection]? with
  | none => .error (backendError "invalid WLF selection index")
  | some encoding =>
    match recordValue out encoding with
    | .ok value => .ok ⟨out.selection, out.tick, value⟩
    | .error e => .error e

/-- Decoding a record of the handle. -/
def decode (out : NativeRecord) (encodings : List Encoding) : OnHandle Record := fun live =>
  match ownedRecord out encodings with
  | .ok record => (.ok record, live)
  | .error e => (.error e, { live with handle := live.handle.fault })

/-! ## Points -/

/-- `PointState`. -/
structure PointState where
  value : Value
  changedAt : Option Nat
  deriving DecidableEq, Repr

/-- What a record makes of the state of one projection. -/
def PointState.update (state : Option PointState) (signal : Signal) (digits : List UInt8)
    (tick : Nat) : PointState :=
  let value := Value.bits (sliceDigits digits (signal.lsb + signal.width.getD 0 - 1) signal.lsb)
  match state with
  | some previous =>
    if previous.value.sameValue value then previous else ⟨value.toOwned, some tick⟩
  | none => ⟨value.toOwned, none⟩

/-- A record shown to every projection of its selection. -/
def pointRecord (projections : List (Nat × Signal)) (record : Record) (digits : List UInt8)
    (states : List (Option PointState)) : List (Option PointState) :=
  (projections.zip states).map fun entry =>
    if entry.1.1 = record.selection then
      some (PointState.update entry.2 entry.1.2 digits record.tick)
    else entry.2

/-- The loop of `point_states`, with fuel for the records that are left. -/
def pointLoop (sdk : Sdk) (encodings : List Encoding) (projections : List (Nat × Signal))
    (start : Option Nat) : Nat → List (Option PointState) → OnHandle (List (Option PointState))
  | 0, states => pure states
  | fuel + 1, states => do
    let out ← nextNative sdk "sample"
    match out with
    | none => pure states
    | some out =>
      -- The first tick of a suffix can hold a synthetic entering state.
      if start.any (out.tick ≤ ·) then pointLoop sdk encodings projections start fuel states
      else do
        let record ← decode out encodings
        match record.value with
        | .bits digits =>
          pointLoop sdk encodings projections start fuel
            (pointRecord projections record digits states)
        | _ => fun live =>
          (.error (backendError "WLF point requires bits"),
            { live with handle := live.handle.fault })

/-- `point_states`. -/
def pointStates (sdk : Sdk) (indices : List Nat) (encodings : List Encoding)
    (projections : List (Nat × Signal)) (start : Option Nat) (time : Nat) :
    OnHandle (List (Option PointState)) := do
  beginNative sdk indices (start.getD 0) time true
  let left ← Decoder.look fun live : Live => live.handle.owner.traversal.length
  pointLoop sdk encodings projections start (left + 1) (projections.map fun _ => none)

/-- `LOOKBACK`. -/
def lookback : Nat := 32

/-- The samples of projections whose states are known. -/
def knownSample (projection : Nat × Signal) (state : Option PointState) : Option Query.Sample :=
  state.bind fun state =>
    state.changedAt.map fun tick => .value projection.2 state.value (some tick)

/-- The samples of projections whose whole history was read. -/
def wholeSample (projection : Nat × Signal) (state : Option PointState) : Query.Sample :=
  match state with
  | some state => .value projection.2 state.value state.changedAt
  | none => .missing projection.2

/-- The body of `sample_bits` on its handle. -/
def sampleStates (sdk : Sdk) (indices : List Nat) (encodings : List Encoding)
    (projections : List (Nat × Signal)) (target : Nat) : OnHandle (List Query.Sample) := do
  let recent ←
    if lookback < target then do
      let hint ←
        match indices, projections.all fun projection => !projection.2.isSlice with
        | [index], true => pointStartNative sdk index target
        | _, _ => pure none
      pointStates sdk indices encodings projections (some (hint.getD (target - lookback))) target
    else pure (projections.map fun _ => none)
  let samples := (projections.zip recent).map fun entry => knownSample entry.1 entry.2
  -- The projections without a recent change, and the bases they need, each once.
  let left := ((projections.zip samples).filter fun entry => entry.2.isNone).map Prod.fst
  let bases := (left.map Prod.fst).reverse.dedup.reverse
  let fallback := left.map fun projection => (bases.idxOf projection.1, projection.2)
  if fallback.isEmpty then pure (samples.filterMap id)
  else do
    let states ← pointStates sdk (bases.map fun base => indices.getD base 0)
      (bases.map fun base => encodings.getD base .unsupported) fallback none target
    let whole := (fallback.zip states).map fun entry => wholeSample entry.1 entry.2
    pure (fillMissing samples whole)
where
  /-- The samples with those of the second list in place of the missing ones. -/
  fillMissing : List (Option Query.Sample) → List Query.Sample → List Query.Sample
    | [], _ => []
    | some sample :: samples, whole => sample :: fillMissing samples whole
    | none :: samples, sample :: whole => sample :: fillMissing samples whole
    | none :: samples, [] => fillMissing samples []

end Ondas.Wlf
