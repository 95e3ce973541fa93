import Ondas.Library.Machine
import Ondas.Library.Ticks
import Ondas.Value

/-!
# FST candidate times

The FST reader decodes what the reader library hands to its callback. The library is a field of
`Reader`: for a filter, the callbacks it makes and how it ends. `readCandidateTimes` visits each
tick of the callbacks in a window once, one tick late, and the last one only when the read ends
well.
-/

namespace Ondas.Fst

open Library

/-! ## The library -/

/-- `FstSignalValue`. -/
inductive SignalValue where
  | string (bytes : List UInt8)
  | real (raw : UInt64)
  deriving DecidableEq, Repr

/-- `FstFilter`. -/
structure Filter where
  start : Nat
  stop : Nat
  handles : List Nat
  deriving DecidableEq, Repr

/-- One call of the callback of `FstReader::read_signals`. -/
structure Callback where
  time : Nat
  handle : Nat
  raw : SignalValue
  deriving DecidableEq, Repr

/-- `ReaderError`, by what the reader makes of it. -/
inductive ReaderError where
  | notFinishedCompressing (message : String)
  | io (unexpectedEof : Bool) (message : String)
  | other (message : String)
  deriving DecidableEq, Repr

/-- `malformed`: an FST format error. -/
def malformed (message : String) : Error := .malformed .fst "fst-lib" message

/-- `reader_error`. -/
def readerError : ReaderError → Error
  | .notFinishedCompressing message => .backend "fst-lib" "open" message
  | .io false message => .io message
  | .io true message => malformed message
  | .other message => malformed message

/-- `Reader`, with the calls that the library makes for a filter and how it ends. -/
structure Reader where
  readSignals : Filter → List Callback × Except ReaderError Unit
  handles : List Nat
  indices : Nat → Option Nat
  encodings : List Encoding

/-! ## Reading -/

/-- `ascii_string`. -/
def asciiString (bytes : List UInt8) (time : Nat) : Except Error Value :=
  if bytes.all (· < 128) then .ok (.string bytes) else .error (.nonAsciiString .fst "fst-lib" time)

/-- The value of a callback. -/
def decode (encoding : Encoding) (time : Nat) : SignalValue → Except Error Value
  | raw =>
    match encoding, raw with
    | .event, _ => .ok (.event 1)
    | .real, .real raw => .ok (.real raw)
    | .bits width, .string bytes =>
      if fromAscii bytes && bytes.length == width then .ok (.bits bytes)
      else .error (malformed "invalid bit-vector value")
    | .string, .string bytes => asciiString bytes time
    | _, _ => .error (malformed "value encoding disagrees with hierarchy")

/-- `Stop`: why the callback ends a read. -/
inductive Stop (B : Type) where
  | break (value : B)
  | error (error : Error)

section
variable {σ B : Type}

/-- The callback of `Reader::read`. Sections may hold values past the end. -/
def Reader.callback (r : Reader) (stop : Nat) (visitor : σ → Nat → Nat → Value → σ × ControlFlow B)
    (c : σ) (call : Callback) : σ × ControlFlow (Stop B) :=
  if stop < call.time then (c, .continue)
  else
    match r.indices call.handle with
    | none => (c, .break (.error (malformed "unknown value handle")))
    | some index =>
      match decode (r.encodings.getD index .unsupported) call.time call.raw with
      | .error e => (c, .break (.error e))
      | .ok value =>
        match visitor c index call.time value with
        | (c, .continue) => (c, .continue)
        | (c, .break b) => (c, .break (.break b))

/-- `Reader::read`. -/
def Reader.read (r : Reader) (signals : List Signal) (start stop : Nat)
    (visitor : σ → Nat → Nat → Value → σ × ControlFlow B) (c : σ) :
    σ × Except Error (ControlFlow B) :=
  let calls := r.readSignals ⟨start, stop, signals.map fun signal => r.handles.getD signal.index 0⟩
  match visit (r.callback stop visitor) c calls.1 with
  | (c, .break (.break b)) => (c, .ok (.break b))
  | (c, .break (.error e)) => (c, .error e)
  | (c, .continue) =>
    match calls.2 with
    | .ok () => (c, .ok .continue)
    | .error e => (c, .error (readerError e))

/-- The callback of `read_candidate_times`: a tick is visited when the next one is seen. -/
def candidate (start : Nat) (visitor : σ → Nat → σ × ControlFlow B) (st : Option Nat × σ)
    (_index time : Nat) (_value : Value) : (Option Nat × σ) × ControlFlow B :=
  if time < start then (st, .continue)
  else
    match st.1.filter fun previous => decide (previous ≠ time) with
    | none => ((some time, st.2), .continue)
    | some previous =>
      match visitor st.2 previous with
      | (c, .continue) => ((some time, c), .continue)
      | (c, .break b) => ((st.1, c), .break b)

/-- `Reader::read_candidate_times`. -/
def Reader.readCandidateTimes (r : Reader) (signals : List Signal) (start stop : Nat)
    (visitor : σ → Nat → σ × ControlFlow B) (c : σ) : σ × Except Error (ControlFlow B) :=
  if signals.isEmpty || decide (stop < start) then (c, .ok .continue)
  else
    match r.read signals start stop (candidate start visitor) (none, c) with
    | ((_, c), .error e) => (c, .error e)
    | ((_, c), .ok (.break b)) => (c, .ok (.break b))
    | ((none, c), .ok .continue) => (c, .ok .continue)
    | ((some time, c), .ok .continue) =>
      -- A failed read does not publish the unfinished tick.
      match visitor c time with
      | (c, flow) => (c, .ok flow)

/-! ## The visited ticks -/

/-- The ticks of calls in a window. -/
def windowTicks (start stop : Nat) (calls : List Callback) : List Nat :=
  (calls.map Callback.time).filter fun t => decide (start ≤ t) && decide (t ≤ stop)

/-- The ticks of a window, each once, from a pending one on. -/
def distinct (pending : Option Nat) (ticks : List Nat) : List Nat :=
  (pending.toList ++ ticks).destutter (· ≠ ·)

/-- The last distinct tick is the one that is still to be visited. -/
theorem distinct_cons_ne {previous time : Nat} (h : previous ≠ time) (ticks : List Nat) :
    distinct (some previous) (time :: ticks) = previous :: distinct (some time) ticks :=
  List.destutter'_cons_pos ticks h

theorem distinct_cons_same (time : Nat) (ticks : List Nat) :
    distinct (some time) (time :: ticks) = distinct (some time) ticks :=
  List.destutter'_cons_neg ticks fun h => h rfl

theorem distinct_ne_nil (time : Nat) (ticks : List Nat) : distinct (some time) ticks ≠ [] :=
  List.destutter'_ne_nil _ _

/-- A callback that goes on has visited a tick or not, and keeps one pending. -/
theorem callback_continue {r : Reader} {start stop : Nat} {visitor : σ → Nat → σ × ControlFlow B}
    {pending pending' : Option Nat} {c c' : σ} {call : Callback}
    (h : r.callback stop (candidate start visitor) (pending, c) call =
      ((pending', c'), .continue)) :
    (¬ (start ≤ call.time ∧ call.time ≤ stop) ∧ pending' = pending ∧ c' = c) ∨
    (start ≤ call.time ∧ call.time ≤ stop) ∧ pending' = some call.time ∧
      (c' = c ∧ (pending = none ∨ pending = some call.time) ∨
        ∃ previous, pending = some previous ∧ previous ≠ call.time ∧
          visitor c previous = (c', .continue)) := by
  unfold Reader.callback at h
  split at h
  · next hstop =>
    cases h
    exact .inl ⟨fun hwindow => by omega, rfl, rfl⟩
  · next hstop =>
    split at h
    · cases h
    · split at h
      · cases h
      · next value _ =>
        split at h
        · next d hcandidate =>
          cases h
          unfold candidate at hcandidate
          split at hcandidate
          · cases hcandidate
            exact .inl ⟨fun hwindow => by omega, rfl, rfl⟩
          · next hstart =>
            refine .inr ⟨⟨by omega, by omega⟩, ?_⟩
            cases pending with
            | none => cases hcandidate; exact ⟨rfl, .inl ⟨rfl, .inl rfl⟩⟩
            | some previous =>
              by_cases hne : previous = call.time
              · simp only [Option.filter_some, hne, ne_eq, not_true_eq_false, decide_false,
                  Bool.false_eq_true, if_false] at hcandidate
                cases hcandidate
                exact ⟨rfl, .inl ⟨rfl, .inr (by rw [hne])⟩⟩
              · simp only [Option.filter_some, hne, ne_eq, not_false_eq_true, decide_true,
                  if_true] at hcandidate
                rcases hvisit : visitor c previous with ⟨d, _ | b⟩
                · rw [hvisit] at hcandidate
                  cases hcandidate
                  exact ⟨rfl, .inr ⟨previous, rfl, hne, hvisit⟩⟩
                · rw [hvisit] at hcandidate
                  cases hcandidate
        · cases h

/-- The loop over the calls has visited the distinct ticks of the window but the last one. -/
theorem visit_calls {r : Reader} {start stop : Nat} {visitor : σ → Nat → σ × ControlFlow B}
    {pending pending' : Option Nat} {c c' : σ} {calls : List Callback}
    (h : visit (r.callback stop (candidate start visitor)) (pending, c) calls =
      ((pending', c'), .continue)) :
    visit visitor c (distinct pending (windowTicks start stop calls)).dropLast = (c', .continue) ∧
      (distinct pending (windowTicks start stop calls)).getLast? = pending' := by
  induction calls generalizing pending c with
  | nil =>
    cases h
    cases pending' <;> exact ⟨rfl, rfl⟩
  | cons call calls ih =>
    rw [visit] at h
    split at h
    · next d hcall =>
      obtain ⟨pending₁, c₁⟩ := d
      obtain ⟨hvisit, hlast⟩ := ih h
      have hticks : windowTicks start stop (call :: calls) =
          if start ≤ call.time ∧ call.time ≤ stop then
            call.time :: windowTicks start stop calls else windowTicks start stop calls := by
        unfold windowTicks
        rw [List.map_cons, List.filter_cons]
        by_cases hwindow : start ≤ call.time ∧ call.time ≤ stop <;> simp [hwindow]
      rw [hticks]
      rcases callback_continue hcall with ⟨hout, rfl, rfl⟩ | ⟨hin, rfl, hpending⟩
      · rw [if_neg hout]
        exact ⟨hvisit, hlast⟩
      · rw [if_pos hin]
        rcases hpending with ⟨rfl, rfl | rfl⟩ | ⟨previous, rfl, hne, hprevious⟩
        · exact ⟨hvisit, hlast⟩
        · rw [distinct_cons_same]
          exact ⟨hvisit, hlast⟩
        · rw [distinct_cons_ne hne, List.dropLast_cons_of_ne_nil (distinct_ne_nil _ _), visit,
            hprevious, List.getLast?_cons_of_ne_nil (distinct_ne_nil _ _)]
          exact ⟨hvisit, hlast⟩
    · cases h

/-- A read of candidate times that completes has visited the distinct ticks of the window. -/
theorem readCandidateTimes_visits {r : Reader} {signals : List Signal} {start stop : Nat}
    {visitor : σ → Nat → σ × ControlFlow B} {c c' : σ}
    (h : r.readCandidateTimes signals start stop visitor c = (c', .ok .continue)) :
    visit visitor c (if signals.isEmpty || decide (stop < start) then [] else
      (windowTicks start stop (r.readSignals ⟨start, stop,
        signals.map fun signal => r.handles.getD signal.index 0⟩).1).destutter (· ≠ ·)) =
      (c', .continue) := by
  unfold Reader.readCandidateTimes at h
  split at h
  · next hidle =>
    cases h
    rw [if_pos hidle]
    rfl
  · next hidle =>
    rw [if_neg hidle]
    unfold Reader.read at h
    dsimp only at h
    generalize r.readSignals _ = calls at h ⊢
    rcases hloop : visit (r.callback stop (candidate start visitor)) (none, c) calls.1 with
      ⟨⟨pending, d⟩, _ | stopped⟩
    · obtain ⟨hvisit, hlast⟩ := visit_calls hloop
      rw [hloop] at h
      dsimp only at h
      have hdistinct : distinct none (windowTicks start stop calls.1) =
        (windowTicks start stop calls.1).destutter (· ≠ ·) := rfl
      rw [hdistinct] at hvisit hlast
      cases hend : calls.2 with
      | error e => rw [hend] at h; cases h
      | ok u =>
        rw [hend] at h
        dsimp only at h
        cases pending with
        | none =>
          cases h
          rw [List.getLast?_eq_none_iff] at hlast
          rw [hlast] at hvisit ⊢
          exact hvisit
        | some time =>
          dsimp only at h
          have hsplit := List.dropLast_append_getLast? time hlast
          rw [← hsplit, visit_append, hvisit]
          dsimp only
          rw [visit]
          rcases hlast : visitor d time with ⟨d', _ | b⟩ <;> rw [hlast] at h <;> cases h
          rfl
    · rw [hloop] at h
      rcases stopped with b | e <;> cases h

end
end Ondas.Fst
