import Ondas.Vcd.Query

/-!
# The serial VCD reader

`Reader` is what opening leaves for the queries: the bytes of the file, where the body starts, the
identifier tables and the final encodings. `Header` is the part of it that the header declares; what
follows holds for every header. `openBody` validates the body once, with nothing selected, and
`serialRead` replays it from the body start or from a `Position`, with only the selected histories
delivered and an early end.

Input failures are data of the call (`Faults`): a failing seek, or reads that fail from some byte
on.
-/

namespace Ondas.Vcd

open Library

/-- What the header leaves for the body: where it starts, the identifier codes in a map and in a
direct table, and the declared encodings. -/
structure Header where
  body : Nat
  ids : List (List UInt8 × Nat)
  denseIds : List (Option Nat)
  encodings : List Encoding

/-- The chunks of a body that opened in parallel. -/
structure ParallelSource where
  cuts : List Nat
  lastTime : Nat

/-- A VCD reader over the bytes of a file. `parseReal` is the binary64 parser of the standard
library. -/
structure Reader where
  bytes : List UInt8
  parseReal : List UInt8 → Option UInt64
  body : Nat
  ids : List (List UInt8 × Nat)
  denseIds : List (Option Nat)
  encodings : List Encoding
  position : Option Position
  parallel : Option ParallelSource

/-- How the input of one call fails: the seek may, and reads may from some byte on. -/
structure Faults where
  seek : Option String
  reads : Option (Nat × String)

/-- An input that does not fail. -/
def Faults.none : Faults := ⟨.none, .none⟩

/-- The byte source after a seek to `offset`. -/
def tokensFrom (bytes : List UInt8) (faults : Faults) (offset : Nat) : Tokens :=
  match faults.reads with
  | none => ⟨bytes.drop offset, offset, none⟩
  | some (limit, message) => ⟨(bytes.drop offset).take (limit - offset), offset, some message⟩

/-- The bytes of one chunk of the file. -/
def chunkTokens (bytes : List UInt8) (start stop : Nat) : Tokens :=
  ⟨(bytes.drop start).take (stop - start), start, none⟩

namespace Reader

/-- The fixed data of a walk by this reader. -/
def args (r : Reader) (stop : Nat) (selected : Option (List Nat)) (comments : Bool)
    (progressBytes : Option Nat) : WalkArgs :=
  { ids := r.ids
    denseIds := r.denseIds
    parseReal := r.parseReal
    stop := stop
    selected := selected
    comments := comments
    progressBytes := progressBytes }

/-- The variables `walk_inner` starts with: the reader's position is taken. -/
def walk (r : Reader) (tokens : Tokens) (validating : Bool) (position : Option Position) : Walk :=
  { tokens := tokens
    lastProgress := tokens.offset
    time := (position.map Position.time).getD 0
    span := none
    block := (position.map Position.block).getD false
    encodings := r.encodings
    seen := if validating then List.replicate r.encodings.length false else []
    comments := []
    position := none }

/-- The body start as a position. -/
def bodyStart (r : Reader) : Position := ⟨r.body, 0, false⟩

/-- The arguments of a query walk. -/
def queryArgs (r : Reader) (signals : List Signal) (stop : Nat) : WalkArgs :=
  r.args stop (some (signals.map Signal.index)) false none

/-- The arguments of a validating walk. -/
def openArgs (r : Reader) : WalkArgs :=
  r.args u64Max none true none

/-- `read_from` after the parallel path declined. The position is kept only after a walk that went
to its end. -/
def serialRead {σ B : Type*} (r : Reader) (faults : Faults) (signals : List Signal) (stop : Nat)
    (position : Option Position) (visitor : σ → Record → σ × ControlFlow B) (c : σ) :
    Reader × σ × Except Error (ControlFlow B) :=
  let position := position.getD r.bodyStart
  match faults.seek with
  | some message => ({ r with position := none }, c, .error (.io message))
  | none =>
    let w := r.walk (tokensFrom r.bytes faults position.offset) false (some position)
    match walkInner (r.queryArgs signals stop) (onRecord visitor) c w with
    | (c', .broke b) => ({ r with position := none }, c', .ok (.break b))
    | (c', .finished (.ok w')) => ({ r with position := w'.position }, c', .ok .continue)
    | (c', .finished (.error e)) => ({ r with position := none }, c', .error e)
    | (c', .exhausted) => ({ r with position := none }, c', .ok .continue)

/-- `read_from`. A read from the body start asks `parallel_full` first, which needs chunks. -/
def readFrom {σ B : Type*} (r : Reader) (faults : Faults)
    (parallelFull : ParallelSource → Option (Reader × σ × Except Error (ControlFlow B)))
    (signals : List Signal) (stop : Nat) (position : Option Position)
    (visitor : σ → Record → σ × ControlFlow B) (c : σ) :
    Reader × σ × Except Error (ControlFlow B) :=
  match position, r.parallel.bind parallelFull with
  | none, some result => result
  | _, _ => r.serialRead faults signals stop position visitor c

end Reader

/-- What opening learns from the body. -/
structure Opened where
  span : Option TimeSpan
  comments : List (List UInt8)
  encodings : List Encoding
  deriving DecidableEq, Repr

/-- The reader over a header, before its body is read. -/
def Header.reader (h : Header) (parseReal : List UInt8 → Option UInt64) (bytes : List UInt8) :
    Reader :=
  { bytes := bytes
    parseReal := parseReal
    body := h.body
    ids := h.ids
    denseIds := h.denseIds
    encodings := h.encodings
    position := none
    parallel := none }

namespace Reader

/-- The result of a validating walk over `tokens`, from a fresh state. -/
def validate (r : Reader) (tokens : Tokens) : Except Error Walk :=
  match walkInner (B := Unit) r.openArgs (fun c _ => (c, .continue)) ()
    (r.walk tokens true none) with
  | (_, .finished result) => result
  | (_, .broke _) => .error (malformed "")
  | (_, .exhausted) => .error (malformed "")

/-- The serial half of the end of `Reader::open`: the body is walked once from its start. -/
def openSerial (r : Reader) : Except Error Opened :=
  match r.validate (tokensFrom r.bytes .none r.body) with
  | .error e => .error e
  | .ok w => .ok ⟨w.span, w.comments, w.encodings⟩

/-- The reader after opening. -/
def opened (r : Reader) (o : Opened) : Reader := { r with encodings := o.encodings }

end Reader

/-! ## The callbacks removed -/

namespace Reader

/-- A validating walk is the machine's run. -/
theorem validate_eq {r : Reader} {tokens : Tokens} {out : List Emit} {result : Except Error Walk}
    (h : Runs (walkStep r.openArgs) (r.walk tokens true none) out result) :
    r.validate tokens = result := by
  have hvisit : ∀ (xs : List Emit),
      visit (B := Unit) (fun c _ => (c, .continue)) () xs = ((), .continue) := by
    intro xs
    rw [visit_continue (fun c _ => c)]
  unfold validate
  rw [walkInner_eq h, hvisit]

/-- What a read from a position delivers and how it ends, whatever the visitor. -/
def Delivers (r : Reader) (faults : Faults) (signals : List Signal) (stop : Nat)
    (position : Position) (recs : List Record) (result : Except Error Walk) : Prop :=
  ∃ out, recs = records out ∧
    Runs (walkStep (r.queryArgs signals stop))
      (r.walk (tokensFrom r.bytes faults position.offset) false (some position)) out result

/-- Every read delivers some records and ends. -/
theorem delivers_total (r : Reader) (faults : Faults) (signals : List Signal) (stop : Nat)
    (position : Position) : ∃ recs result, r.Delivers faults signals stop position recs result := by
  obtain ⟨out, result, hrun⟩ := walk_total (r.queryArgs signals stop)
    (r.walk (tokensFrom r.bytes faults position.offset) false (some position))
  exact ⟨records out, result, out, rfl, hrun⟩

/-- What a read returns, from what its visitor answered and how its walk ended. -/
def ended {σ B : Type*} (r : Reader) (visited : σ × ControlFlow B) (result : Except Error Walk) :
    Reader × σ × Except Error (ControlFlow B) :=
  match visited, result with
  | (c, .break b), _ => ({ r with position := none }, c, .ok (.break b))
  | (c, .continue), .ok w => ({ r with position := w.position }, c, .ok .continue)
  | (c, .continue), .error e => ({ r with position := none }, c, .error e)

/-- A read keeps a position only when its walk went to the end. -/
theorem ended_position {σ B : Type*} {r : Reader} {visited : σ × ControlFlow B}
    {result : Except Error Walk} {p : Position} (h : (r.ended visited result).1.position = some p) :
    ∃ w, result = .ok w ∧ w.position = some p := by
  rcases visited with ⟨c, _ | b⟩
  · cases result with
    | ok w => exact ⟨w, rfl, h⟩
    | error e => cases h
  · cases h

/-- A read fails only as its walk does. -/
theorem ended_error {σ B : Type*} {r : Reader} {visited : σ × ControlFlow B}
    {result : Except Error Walk} {e : Error} (h : (r.ended visited result).2.2 = .error e) :
    result = .error e := by
  rcases visited with ⟨c, _ | b⟩
  · cases result with
    | ok w => cases h
    | error e' => cases h; rfl
  · cases h

/-- `read_from` feeds its visitor the records of the walk and ends with it, unless the visitor
breaks. -/
theorem serialRead_eq {σ B : Type*} {r : Reader} {faults : Faults} {signals : List Signal}
    {stop : Nat} {position : Option Position} {recs : List Record} {result : Except Error Walk}
    (hseek : faults.seek = none)
    (h : r.Delivers faults signals stop (position.getD r.bodyStart) recs result)
    (visitor : σ → Record → σ × ControlFlow B) (c : σ) :
    r.serialRead faults signals stop position visitor c =
      r.ended (visit visitor c recs) result := by
  obtain ⟨out, rfl, hrun⟩ := h
  unfold serialRead
  simp only [hseek]
  rw [walkInner_eq hrun, visit_onRecord]
  rcases visit visitor c (records out) with ⟨c', _ | b⟩
  · cases result <;> rfl
  · rfl

end Reader
end Ondas.Vcd
