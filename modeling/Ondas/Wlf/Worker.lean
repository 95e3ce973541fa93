import Ondas.Wlf.Native

/-!
# The WLF worker

The worker thread runs one job after the other on its `State`: the logical sessions, the resolution
the process has selected, and at most one idle owner. The library has one resolution for a whole
process, so a job that opens a file, or uses a session of another resolution, first drops every
owner; a session reopens its owner when it is used again, and restarts its query from the beginning
(`file`). `next` skips the records that the query has transferred already.

A job is a `Decoder` of the `World`: the state and the number of the next call to the environment.
-/

namespace Ondas.Wlf

open Library

/-! ## The state -/

/-- `Query`: a started query of a session. -/
structure Query where
  indices : List Nat
  encodings : List Encoding
  start : Nat
  stop : Nat
  last : Option (Nat × Nat)
  finished : Bool
  deriving DecidableEq, Repr

/-- `File`: a logical session. -/
structure File where
  path : Path
  name : Path
  resolution : Nat
  last : Nat
  encodings : List Encoding
  native : Option Handle
  query : Option Query
  deriving DecidableEq, Repr

/-- `Idle`: one owner that is kept while no session is registered. -/
structure Idle where
  path : Path
  resolution : Nat
  handle : Handle
  deriving DecidableEq, Repr

/-- `State`. -/
structure State where
  files : Std.HashMap Nat File
  nextId : Nat
  resolution : Option Nat
  idle : Option Idle

namespace State

/-- The state of a new worker. -/
def initial : State := ⟨∅, 0, none, none⟩

/-- `State::reset`: drop every owner. -/
def reset (state : State) : State :=
  { state with
    idle := none
    files := state.files.map fun _ file => { file with native := none }
    resolution := none }

/-- `State::select_resolution`. -/
def selectResolution (state : State) (resolution : Nat) : State :=
  if state.resolution = some resolution then state
  else { state.reset with resolution := some resolution }

/-- A session with another content. -/
def put (state : State) (id : Nat) (file : File) : State :=
  { state with files := state.files.insert id file }

end State

/-- The state of the worker, and the number of the next call. -/
structure World where
  state : State
  calls : Nat

/-- A job of the worker. -/
abbrev Job (α : Type) := Decoder World Error α

namespace Job

/-- Change the state. -/
def modify (f : State → State) : Job Unit := fun w => (.ok (), { w with state := f w.state })

/-- A call to the environment. -/
def call {α : Type} (f : Nat → α) : Job α :=
    fun w => (.ok (f w.calls), { w with calls := w.calls + 1 })

/-- Something done with a handle. It returns the handle, whatever the outcome. -/
def onHandle {α : Type} (handle : Handle) (x : OnHandle α) : Job (Except Error α × Handle) :=
  fun w =>
    match x ⟨handle, w.calls⟩ with
    | (result, live) => (.ok (result, live.handle), { w with calls := live.calls })

/-- End with a result. -/
def raise {α : Type} (result : Except Error α) : Job α := fun w => (result, w)

end Job

open Job

/-! ## Identities -/

/-- `file_metadata`. -/
def fileMetadata (sdk : Sdk) (path : Path) : Job (Option NativeMetadata) :=
  call fun k => sdk.stat k path

/-- The loop of `content_identity`: the bytes that are missing, and those read so far. Each turn
reads one of the missing bytes at least. -/
def readLoop (sdk : Sdk) : Nat → Nat → List UInt8 → Job (Option (List UInt8))
  | 0, _, content => pure (some content)
  | fuel + 1, remaining, content =>
    if remaining = 0 then pure (some content)
    else do
      let want := min remaining (64 * 1024)
      let read ← call fun k => (sdk.read k want).map (·.take want)
      match read with
      | none | some [] => pure none
      | some bytes => readLoop sdk fuel (remaining - bytes.length) (content ++ bytes)

/-- `content_identity`. -/
def contentIdentity (sdk : Sdk) (path : Path) : Job (Option NativeIdentity) := do
  let before ← fileMetadata sdk path
  match before with
  | none => pure none
  | some before => do
    let opened ← call fun k => sdk.openFile k path
    if !opened then pure none
    else do
      let described ← call sdk.fstat
      if described ≠ some before then pure none
      else do
        let content ← readLoop sdk before.size before.size []
        match content with
        | none => pure none
        | some content => do
          let extra ← call fun k => sdk.read k 1
          if extra ≠ some [] then pure none
          else do
            let described ← call sdk.fstat
            if described ≠ some before then pure none
            else do
              let after ← fileMetadata sdk path
              if after ≠ some before then pure none
              else pure (some ⟨before, sdk.digest content⟩)

/-! ## Owners -/

/-- `open_handle`. -/
def openHandle (sdk : Sdk) (path name : Path) (metadataOnly : Bool) : Job Handle := do
  let before ← if metadataOnly then pure none else fileMetadata sdk path
  let opened ← call fun k => sdk.openOwner k path name metadataOnly
  match opened with
  | .error failure =>
    raise (.error (status failure (if metadataOnly then "read metadata" else "open")))
  | .ok raw => do
    let identity ←
      if metadataOnly then pure none
      else do
        let hashed ← contentIdentity sdk path
        pure (hashed.filter fun hashed => before = some hashed.metadata)
    match raw with
    | none => raise (.error (backendError "null WLF reader"))
    | some (header, declarations) =>
      pure ⟨⟨path, header, declarations, [], 0⟩, identity, true⟩

/-- The time units of a native resolution. -/
def timeUnits : List TimeUnit :=
  [.femtosecond, .picosecond, .nanosecond, .microsecond, .millisecond, .second]

/-- `metadata`. -/
def metadata (header : Meta) (sourceName : String) : Except Error Metadata :=
  match timeUnits[header.resolution / 3]? with
  | none => .error (backendError "invalid WLF resolution")
  | some unit =>
    match string header.writer with
    | .error e => .error e
    | .ok writer =>
      .ok ⟨sourceName, some ⟨10 ^ (header.resolution % 3), unit⟩,
        some ⟨header.first, header.last⟩, writer, none, []⟩

/-! ## Declarations -/

/-- `Declaration`. -/
structure Declaration where
  id : Int
  parent : Option Nat
  scope : Bool
  encoding : Encoding
  direction : Nat
  isConstant : Bool
  range : Option (Int × Int)
  signedness : Nat
  logicDomain : Nat
  name : String
  kind : String
  definition : Option String
  verilogName : Bool
  variants : List (String × String)
  arrayBaseLen : Nat
  deriving DecidableEq, Repr

/-- `usize::MAX`, the parent of a root. -/
def noParent : Nat := 2 ^ 64 - 1

/-- The encoding of a declaration. -/
def declaredEncoding (d : NativeDeclaration) : Except Error Encoding :=
  match d.encoding with
  | 0 => .ok .unsupported
  | 1 => if 0 < d.width then .ok (.bits d.width) else .error (backendError "invalid WLF encoding")
  | 2 => .ok .real
  | 3 => .ok .string
  | 4 => .ok .event
  | _ => .error (backendError "invalid WLF encoding")

/-- The text of an optional variant table. -/
def optionalText (text : Text) : Option String :=
  match string text with
  | .ok (some text) => some text
  | _ => none

/-- `enum_strings`. -/
def enumStrings (variant : Text × Text) : Option (String × String) :=
  match optionalText variant.1, optionalText variant.2 with
  | some bits, some label => some (bits, label)
  | _, _ => none

/-- A text that has to be there. -/
def required (text : Text) (message : String) : Except Error String :=
  match string text with
  | .error e => .error e
  | .ok none => .error (backendError message)
  | .ok (some text) => .ok text

/-- One declaration of `open`. An unusable variant table is dropped as a whole. -/
def declaration (index : Nat) (d : NativeDeclaration) : Except Error Declaration := do
  let encoding ← declaredEncoding d
  if d.parent ≠ noParent ∧ index ≤ d.parent then
    .error (backendError "invalid WLF hierarchy parent")
  else
    let name ← required d.name "missing WLF name"
    let kind ← required d.kind "missing WLF kind"
    let definition ← string d.definition
    .ok ⟨d.id, if d.parent ≠ noParent then some d.parent else none, d.entry == 0, encoding,
      d.direction, d.isConstant != 0, if d.hasRange ≠ 0 then some (d.msb, d.lsb) else none,
      d.signedness, d.logicDomain, name, kind, definition, d.verilogName != 0,
      (d.variants.mapM enumStrings).getD [], d.arrayBaseLen⟩

/-- The declarations of `open`. -/
def declarations : Nat → List NativeDeclaration → Except Error (List Declaration)
  | _, [] => .ok []
  | index, d :: rest => do
    let head ← declaration index d
    let tail ← declarations (index + 1) rest
    .ok (head :: tail)

/-! ## Jobs -/

/-- `State::file`: the session with a live owner, whose query is restarted when the owner is new. -/
def file (sdk : Sdk) (id : Nat) : Job (File × Handle) := do
  let found ← Decoder.look fun w : World => w.state.files[id]?
  match found with
  | none => raise (.error (backendError "closed WLF session"))
  | some file => do
    modify (·.selectResolution file.resolution)
    let found ← Decoder.look fun w : World => w.state.files[id]?
    match found.bind File.native with
    | some handle => pure ({ file with native := some handle }, handle)
    | none => do
      let handle ← openHandle sdk file.path file.name false
      let handle ←
        match file.query with
        | none => pure handle
        | some query => do
          let (result, handle) ←
            onHandle handle (beginNative sdk query.indices query.start query.stop false)
          raise (result.map fun _ => handle)
      let file := { file with native := some handle }
      modify (·.put id file)
      pure (file, handle)

/-- `read_metadata`. -/
def readMetadata (sdk : Sdk) (path : Path) (sourceName : String) : Job Metadata := do
  modify State.reset
  let handle ← openHandle sdk path (ascii "metadata") true
  raise (metadata handle.owner.header sourceName)

/-- `Opened`. -/
structure Opened where
  id : Nat
  metadata : Metadata
  declarations : List Declaration
  deriving DecidableEq, Repr

/-- The idle owner, when it is one of the path, of the selected resolution and of the same full
identity. It is dropped in every other case. -/
def takeIdle (sdk : Sdk) (path : Path) : Job (Option Idle) := do
  let state ← Decoder.look World.state
  modify fun state => { state with idle := none }
  match state.idle with
  | none => pure none
  | some idle =>
    if state.resolution = some idle.resolution ∧ idle.path = path then
      match idle.handle.identity with
      | none => pure none
      | some saved => do
        let metadata ← fileMetadata sdk path
        if metadata ≠ some saved.metadata then pure none
        else do
          let identity ← contentIdentity sdk path
          if idle.handle.identity = identity then pure (some idle) else pure none
    else pure none

/-- The name of a session. -/
def sessionName (id : Nat) : Path := ascii s!"ondas-{id}"

/-- `open`. -/
def «open» (sdk : Sdk) (path : Path) (sourceName : String) : Job Opened := do
  let state ← Decoder.look World.state
  let id := state.nextId + 1
  if u64Max < id then raise (.error (backendError "WLF session identifier overflow"))
  else do
    modify fun state => { state with nextId := id }
    let reused ← takeIdle sdk path
    modify State.reset
    let handle ←
      match reused with
      | some idle => pure idle.handle
      | none => openHandle sdk path (sessionName id) false
    let resolution := handle.owner.header.resolution
    modify fun state => { state with resolution := some resolution }
    let metadata ← raise (metadata handle.owner.header sourceName)
    let declared ← raise (declarations 0 handle.owner.declarations)
    modify (·.put id ⟨path, sessionName id, resolution, handle.owner.header.last,
      declared.map Declaration.encoding, some handle, none⟩)
    pure ⟨id, metadata, declared⟩

/-- `close`: a clean owner with an identity stays, idle, when no session is left. -/
def close (sdk : Sdk) (id : Nat) (allowIdle : Bool) : Job Unit := do
  let found ← Decoder.look fun w : World => w.state.files[id]?
  match found with
  | none => pure ()
  | some file => do
    modify fun state => { state with files := state.files.erase id }
    let state ← Decoder.look World.state
    match file.native with
    | none => pure ()
    | some handle =>
      if allowIdle ∧ state.files.isEmpty ∧ handle.identity.isSome ∧ handle.reusable ∧
          state.resolution = some file.resolution then do
        let parked ← call sdk.park
        if parked then
          modify fun state =>
            { state with idle := some ⟨file.path, file.resolution, handle.traverse []⟩ }
        else pure ()
      else pure ()

/-- `end`. -/
def «end» (id : Nat) : Job Unit := do
  let found ← Decoder.look fun w : World => w.state.files[id]?
  match found with
  | none => pure ()
  | some file =>
    modify (·.put id { file with native := file.native.map (·.traverse []), query := none })

/-- `begin`. -/
def begin (sdk : Sdk) (id : Nat) (indices : List Nat) (start stop : Nat) : Job Unit := do
  let (file, handle) ← file sdk id
  match indices.mapM fun index => file.encodings[index]? with
  | none => raise (.error (backendError "invalid WLF declaration index"))
  | some encodings => do
    let (result, handle) ← onHandle handle (beginNative sdk indices start stop false)
    let file := { file with native := some handle }
    match result with
    | .error e => do
      modify (·.put id { file with query := none })
      raise (.error e)
    | .ok _ => modify (·.put id
        { file with query := some ⟨indices, encodings, start, stop, none, false⟩ })

/-- `sample_bits`. -/
def sampleBits (sdk : Sdk) (id : Nat) (indices : List Nat) (projections : List (Nat × Signal))
    (time : Nat) : Job (List Query.Sample) := do
  let (file, handle) ← file sdk id
  let encodings := indices.map fun index => file.encodings.getD index .unsupported
  let (result, handle) ← onHandle handle
    (sampleStates sdk indices encodings projections (min time file.last))
  let handle := handle.traverse []
  let handle := if result.isOk then handle else handle.taint
  modify (·.put id { file with native := some handle, query := none })
  raise result

/-- `Failure`. -/
inductive Failure where
  | read (error : Error)
  | decode (selection tick : Nat) (error : Error)
  deriving DecidableEq, Repr

/-- `Batch`. -/
structure Batch where
  records : List Record
  finished : Bool
  error : Option Failure
  deriving DecidableEq, Repr

/-- The key `(tick, selection)` of a record is no later than a transferred one. -/
def transferred (last : Option (Nat × Nat)) (out : NativeRecord) : Bool :=
  last.any fun last => out.tick < last.1 || (out.tick == last.1 && out.selection ≤ last.2)

/-- The loop of `next`, with fuel for the records that are left: the batch and the query. -/
def nextLoop (sdk : Sdk) : Nat → Query → List Record → OnHandle (Batch × Query)
  | 0, query, records => pure (⟨records, false, none⟩, query)
  | fuel + 1, query, records => fun live =>
    match nextNative sdk "read" live with
    | (.error e, live) =>
      (.ok (⟨records, false, some (.read e)⟩, query), { live with handle := live.handle.taint })
    | (.ok none, live) => (.ok (⟨records, true, none⟩, { query with finished := true }), live)
    | (.ok (some out), live) =>
      if transferred query.last out then nextLoop sdk fuel query records live
      else
        match decode out query.encodings live with
        | (.error e, live) =>
          let failure := if out.selection < query.encodings.length then
            .decode out.selection out.tick e else .read e
          (.ok (⟨records, false, some failure⟩, query), { live with handle := live.handle.taint })
        | (.ok record, live) =>
          let query := { query with last := some (out.tick, out.selection) }
          let records := records ++ [record]
          match batchEndNative sdk live with
          | (.error e, live) => (.error e, live)
          | (.ok ended, live) =>
            if ended ≠ 0 then
              (.ok (⟨records, ended == 2, none⟩, { query with finished := ended == 2 }), live)
            else nextLoop sdk fuel query records live

/-- `next`. -/
def next (sdk : Sdk) (id : Nat) : Job Batch := do
  let (file, handle) ← file sdk id
  match file.query with
  | none => raise (.error (backendError "inactive WLF query"))
  | some query =>
    if query.finished then pure ⟨[], true, none⟩
    else do
      let (result, handle) ← onHandle handle
        (nextLoop sdk (handle.owner.traversal.length + 1) query [])
      modify (·.put id { file with
        native := some handle
        query := some (match result with | .ok (_, query) => query | .error _ => query) })
      raise (result.map Prod.fst)

end Ondas.Wlf
