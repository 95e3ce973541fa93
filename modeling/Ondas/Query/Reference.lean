import Mathlib.Data.List.Dedup
import Ondas.Library.Ticks
import Ondas.Query.Composition

/-!
# What a record stream says

The reference a query is compared with. A stream of timed records splits into one history per source
signal; a handle's value at a tick is its composition over the last write of each history, its last
change is the last tick that replaced a known value by another one, and its event count is the sum
of the occurrences recorded at the tick.

Whether a handle has a value is whether a history it depends on has one (`Waveform.value_isSome`),
and a tick that writes none of them leaves it (`Waveform.value_congr`). Both go by induction on the
compositions (`Waveform.induct`).
-/

namespace Ondas.Query

open Library

/-! ## Records and histories -/

/-- One decoded record of a reader. -/
structure Record where
  base : Nat
  time : Nat
  value : Value
  deriving DecidableEq, Repr

/-- A value of the kind an encoding declares. -/
def Fits : Encoding → Value → Prop
  | .bits _, .bits _ => True
  | .real, .real _ => True
  | .string, .string _ => True
  | .event, .event _ => True
  | _, _ => False

/-- The occurrences a record counts. -/
def Record.occurrences (r : Record) : Nat :=
  match r.value with
  | .event occurrences => occurrences
  | _ => 0

/-- The persistent writes of one base history. -/
def history (recs : List Record) (base : Nat) : History Value :=
  recs.filterMap fun r =>
    if r.base = base ∧ r.value.isEvent = false then some (r.time, r.value.toOwned) else none

/-- A persistent write of a history at a tick. -/
def written (recs : List Record) (t base : Nat) : Bool :=
  (history recs base).any fun e => decide (e.1 = t)

/-- The events of a history at a tick. -/
def eventsAt (recs : List Record) (base t : Nat) : Nat :=
  ((recs.filter fun r => decide (r.base = base ∧ r.time = t)).map Record.occurrences).sum

/-- The recorded ticks, in order and with repetitions. -/
def recorded (recs : List Record) : List Nat := recs.map Record.time

/-- The recorded ticks, each once. -/
def ticksOf (recs : List Record) : List Nat := (recorded recs).dedup

/-- Time does not go back in a stream. -/
def Chronological (recs : List Record) : Prop := recs.Pairwise fun a b => a.time ≤ b.time

theorem history_append (recs more : List Record) (base : Nat) :
    history (recs ++ more) base = history recs base ++ history more base :=
  List.filterMap_append

theorem eventsAt_append (recs more : List Record) (base t : Nat) :
    eventsAt (recs ++ more) base t = eventsAt recs base t + eventsAt more base t := by
  simp [eventsAt]

theorem recorded_append (recs more : List Record) :
    recorded (recs ++ more) = recorded recs ++ recorded more :=
  List.map_append

/-- A write of a history is a record of its base. -/
theorem mem_history {recs : List Record} {base : Nat} {e : Nat × Value}
    (h : e ∈ history recs base) :
    ∃ r ∈ recs, r.base = base ∧ r.value.isEvent = false ∧ e = (r.time, r.value.toOwned) := by
  obtain ⟨r, hr, he⟩ := List.mem_filterMap.1 h
  split at he
  · next hbase => exact ⟨r, hr, hbase.1, hbase.2, (Option.some.inj he).symm⟩
  · cases he

/-- A history is in order when the stream is. -/
theorem history_sorted {recs : List Record} (h : Chronological recs) (base : Nat) :
    (history recs base).Sorted := by
  refine List.Pairwise.filterMap _ ?_ h
  intro a a' haa' b hb b' hb'
  split at hb <;> cases hb
  split at hb' <;> cases hb'
  exact haa'

/-! ## The reference of a handle -/

namespace Waveform
variable (w : Waveform) (recs : List Record) (signal : Signal) (t : Nat)

/-- The value a tick leaves. -/
def valueAt : Option Value := w.value (fun i => (history recs i).valueAt t) signal

/-- The value that enters a tick. -/
def enteringAt : Option Value := w.value (fun i => (history recs i).entering t) signal

/-- A tick writes a history the handle depends on. -/
def writtenAt : Bool := w.touched (written recs t) signal

/-- The value and the last change a tick leaves. -/
def committedAt : Option (Value × Option Nat) :=
  committed (recorded recs) (w.enteringAt recs signal) (w.valueAt recs signal) t

/-- The value and the last change that enter a tick. -/
def enteredAt : Option (Value × Option Nat) :=
  entered (recorded recs) (w.enteringAt recs signal) (w.valueAt recs signal) t

end Waveform

/-- The events of a handle at a tick. -/
def countAt (recs : List Record) (signal : Signal) (t : Nat) : Nat :=
  if signal.computed then 0 else eventsAt recs signal.index t

/-- Every record is of the kind its base history declares. -/
def Typed (w : Waveform) (recs : List Record) : Prop :=
  ∀ r ∈ recs, ∃ e, w.encodings[r.base]? = some e ∧ Fits e r.value

/-- Values of source histories, each owned and of the kind its history declares. -/
def TypedSource (w : Waveform) (source : Nat → Option Value) : Prop :=
  ∀ i v, source i = some v → v.toOwned = v ∧ v.isEvent = false ∧
    ∃ e, w.encodings[i]? = some e ∧ Fits e v

theorem Fits.toOwned {e : Encoding} {v : Value} (h : Fits e v) : Fits e v.toOwned := by
  cases e <;> cases v <;> trivial

/-- The last writes of typed histories are typed. -/
theorem Typed.source {w : Waveform} {recs : List Record} (h : Typed w recs)
    {pick : History Value → Option Value}
    (hpick : ∀ (hist : History Value) v, pick hist = some v → ∃ t, (t, v) ∈ hist) :
    TypedSource w fun i => pick (history recs i) := by
  intro i v hv
  obtain ⟨t, hmem⟩ := hpick _ v hv
  obtain ⟨r, hr, rfl, hevent, heq⟩ := mem_history hmem
  cases heq
  obtain ⟨e, he, hfits⟩ := h r hr
  exact ⟨Value.toOwned_idem _, by simpa using hevent, e, he, hfits.toOwned⟩

/-! ## Induction on compositions -/

/-- Validity against the first compositions is validity. -/
theorem Operand.valid_whole {w : Waveform} {i : Nat} {part : Signal}
    (h : Operand w.source w.encodings (w.definitions.take i) part) : w.Valid part := by
  have hvalid := h.valid
  unfold Waveform.Valid
  rw [← hvalid]
  unfold validate
  congr 1
  unfold encodingOf
  cases hc : part.computed with
  | false => rfl
  | true =>
    have hlt := h.index_lt hc
    rw [List.length_take] at hlt
    rw [if_pos rfl, if_pos rfl, List.getElem?_take_of_lt (by omega)]

/-- A valid computed handle names a definition. -/
theorem Waveform.Valid.index_lt {w : Waveform} {signal : Signal} (h : w.Valid signal)
    (hc : signal.computed = true) : signal.index < w.definitions.length := by
  have hencoding := (validateEncoding_ok h).2.2.1
  simp only [encodingOf, hc, if_true] at hencoding
  by_contra hge
  rw [List.getElem?_eq_none (by omega)] at hencoding
  cases hencoding

/-- A part of a valid composition is valid and a bit vector. -/
theorem Waveform.Valid.part {w : Waveform} {signal part : Signal} (h : w.Valid signal)
    (hc : signal.computed = true) (hpart : part ∈ w.compositionParts signal) :
    w.Valid part ∧ (∃ width, part.encoding = .bits width) ∧
      (part.computed = true → part.index < signal.index) := by
  obtain ⟨d, hd⟩ : ∃ d, w.definitions[signal.index]? = some d :=
    ⟨_, List.getElem?_eq_getElem (h.index_lt hc)⟩
  simp only [Waveform.compositionParts, hd, Option.map_some, Option.getD_some] at hpart
  have hop := w.operands _ d hd part hpart
  refine ⟨hop.valid_whole, hop.bits, fun hcomputed => ?_⟩
  have := hop.index_lt hcomputed
  rw [List.length_take] at this
  omega

/-- What holds of source handles, and of computed handles whose parts have it, holds of all valid
handles. -/
theorem Waveform.induct {w : Waveform} {P : Signal → Prop}
    (source : ∀ signal, w.Valid signal → signal.computed = false → P signal)
    (computed : ∀ signal, w.Valid signal → signal.computed = true →
      (∀ part ∈ w.compositionParts signal, P part) → P signal)
    {signal : Signal} (h : w.Valid signal) : P signal := by
  have hall : ∀ n, ∀ s, w.Valid s → s.computed = true → s.index < n → P s := by
    intro n
    induction n with
    | zero => exact fun _ _ _ hlt => absurd hlt (Nat.not_lt_zero _)
    | succ n ih =>
      intro s hs hc hlt
      refine computed s hs hc fun part hpart => ?_
      obtain ⟨hvalid, -, hindex⟩ := hs.part hc hpart
      cases hp : part.computed with
      | false => exact source part hvalid hp
      | true =>
        have := hindex hp
        exact ih part hvalid hp (by omega)
  cases hc : signal.computed with
  | false => exact source signal h hc
  | true => exact hall (signal.index + 1) signal h hc (Nat.lt_succ_self _)

/-! ## Values over typed histories -/

section
variable {w : Waveform}

/-- The base encoding of a valid source handle is the one its history declares. -/
theorem Waveform.Valid.encoding {signal : Signal} (h : w.Valid signal)
    (hc : signal.computed = false) : w.encodings[signal.index]? = some signal.baseEncoding := by
  have hencoding := (validateEncoding_ok h).2.2.1
  simpa [encodingOf, hc] using hencoding

/-- A valid handle is a bit vector when its base is one. -/
theorem Waveform.Valid.bits {signal : Signal} (h : w.Valid signal) :
    (∃ width, signal.encoding = .bits width) ↔ ∃ width, signal.baseEncoding = .bits width := by
  rcases inBase_cases (validateEncoding_ok h).2.2.2 with ⟨base, width, hbase, hwidth⟩ | ⟨heq, -⟩
  · exact ⟨fun _ => ⟨base, hbase⟩, fun _ => ⟨width, hwidth⟩⟩
  · rw [heq]

/-- A valid handle is an event when its base is one. -/
theorem Waveform.Valid.event {signal : Signal} (h : w.Valid signal) :
    signal.encoding = .event ↔ signal.baseEncoding = .event := by
  rcases inBase_cases (validateEncoding_ok h).2.2.2 with ⟨base, width, hbase, hwidth⟩ | ⟨heq, -⟩
  · simp [hbase, hwidth]
  · rw [heq]

/-- Projection keeps bit vectors. -/
theorem digits_project (v : Value) (signal : Signal) :
    (project v signal).digits?.isSome = v.digits?.isSome := by
  cases v with
  | bits data => simp only [project]; split <;> rfl
  | real | string | event => rfl

/-- A known value of a bit handle is a bit vector. -/
theorem Waveform.value_digits {source : Nat → Option Value} (htyped : TypedSource w source)
    {signal : Signal} (h : w.Valid signal) (hbits : ∃ width, signal.encoding = .bits width)
    {v : Value} (hv : w.value source signal = some v) : v.digits?.isSome = true := by
  cases hc : signal.computed with
  | false =>
    rw [value_source hc] at hv
    obtain ⟨u, hu, rfl⟩ := Option.map_eq_some_iff.1 hv
    obtain ⟨-, -, e, he, hfits⟩ := htyped _ u hu
    rw [h.encoding hc, Option.some.injEq] at he
    subst he
    obtain ⟨width, hbase⟩ := h.bits.1 hbits
    rw [digits_project]
    rw [hbase] at hfits
    cases u with
    | bits data => rfl
    | real | string | event => cases hfits
  | true =>
    rw [value_slice hc (h.index_lt hc), value_concat (show signal.base.computed = true from hc)
      (base_isSlice _) (h.index_lt hc)] at hv
    obtain ⟨u, hu, rfl⟩ := Option.map_eq_some_iff.1 hv
    rw [digits_project]
    unfold assemble at hu
    split at hu
    · cases hu; rfl
    · cases hu

/-- A part is observed when it has a value. -/
theorem Waveform.observed_eq {source : Nat → Option Value} (htyped : TypedSource w source)
    {part : Signal} (h : w.Valid part) (hbits : ∃ width, part.encoding = .bits width) :
    observed (part, w.value source part) = (w.value source part).isSome := by
  unfold observed
  cases hv : w.value source part with
  | none => rfl
  | some v => simpa using value_digits htyped h hbits hv

/-- A handle has a value when a history it depends on has one. -/
theorem Waveform.value_isSome {source : Nat → Option Value} (htyped : TypedSource w source)
    {signal : Signal} (h : w.Valid signal) :
    (w.value source signal).isSome = w.touched (fun i => (source i).isSome) signal := by
  refine induct (P := fun signal =>
    (w.value source signal).isSome = w.touched (fun i => (source i).isSome) signal) ?_ ?_ h
  · intro signal _ hc
    rw [value_source hc, touched_source hc, Option.isSome_map]
  · intro signal hvalid hc ih
    rw [value_slice hc (hvalid.index_lt hc), value_concat
      (show signal.base.computed = true from hc) (base_isSlice _) (hvalid.index_lt hc),
      touched_computed hc (hvalid.index_lt hc),
      Option.isSome_map]
    have hany : ((w.compositionParts signal).map fun part => (part, w.value source part)).any
        observed = (w.compositionParts signal).any
          (w.touched fun i => (source i).isSome) := by
      rw [List.any_map, Bool.eq_iff_iff, List.any_eq_true, List.any_eq_true]
      refine exists_congr fun part => and_congr_right fun hpart => ?_
      obtain ⟨hpvalid, hbits, -⟩ := hvalid.part hc hpart
      rw [← ih part hpart, ← observed_eq htyped hpvalid hbits]
      rfl
    have hparts : w.compositionParts signal.base = w.compositionParts signal := rfl
    rw [assemble, hparts, hany]
    split
    · next htrue => rw [htrue]; rfl
    · next hfalse => rw [Bool.not_eq_true] at hfalse; rw [hfalse]; rfl

/-- Writing more histories touches no fewer handles. -/
theorem Waveform.touched_mono {written written' : Nat → Bool}
    (hmono : ∀ i, written i = true → written' i = true) {signal : Signal} (h : w.Valid signal) :
    w.touched written signal = true → w.touched written' signal = true := by
  refine induct (P := fun signal =>
    w.touched written signal = true → w.touched written' signal = true) ?_ ?_ h
  · intro signal _ hc htouched
    rw [touched_source hc] at htouched ⊢
    exact hmono _ htouched
  · intro signal hvalid hc ih htouched
    rw [touched_computed hc (hvalid.index_lt hc), List.any_eq_true] at htouched ⊢
    obtain ⟨part, hpart, hp⟩ := htouched
    exact ⟨part, hpart, ih part hpart hp⟩

/-- With nothing written no handle is touched. -/
theorem Waveform.touched_false {signal : Signal} (h : w.Valid signal) :
    w.touched (fun _ => false) signal = false := by
  refine induct (P := fun signal => w.touched (fun _ => false) signal = false) ?_ ?_ h
  · exact fun signal _ hc => touched_source hc
  · intro signal hvalid hc ih
    rw [touched_computed hc (hvalid.index_lt hc), List.any_eq_false]
    exact fun part hpart => by rw [ih part hpart]; decide

/-- A handle that depends on no written history keeps its value. -/
theorem Waveform.value_congr {source source' : Nat → Option Value} {written : Nat → Bool}
    (hsame : ∀ i, written i = false → source i = source' i) {signal : Signal} (h : w.Valid signal) :
    w.touched written signal = false → w.value source signal = w.value source' signal := by
  refine induct (P := fun signal => w.touched written signal = false →
    w.value source signal = w.value source' signal) ?_ ?_ h
  · intro signal _ hc htouched
    rw [touched_source hc] at htouched
    rw [value_source hc, value_source hc, hsame _ htouched]
  · intro signal hvalid hc ih htouched
    have hlt := hvalid.index_lt hc
    rw [touched_computed hc hlt, List.any_eq_false] at htouched
    have hbase : signal.base.computed = true := hc
    rw [value_slice hc hlt, value_slice hc hlt, value_concat hbase (base_isSlice _) hlt,
      value_concat hbase (base_isSlice _) hlt]
    congr 2
    exact List.map_congr_left fun part hpart => by
      rw [ih part hpart (by simpa using htouched part hpart)]

/-- The digits of an owned part are lower case. -/
theorem partDigits_owned {part : Signal} {value : Option Value}
    (h : ∀ v, value = some v → v.toOwned = v) :
    (partDigits (part, value)).map toAsciiLowercase = partDigits (part, value) := by
  unfold partDigits
  cases value with
  | none => exact List.map_replicate
  | some v =>
    have hv := h v rfl
    cases v with
    | bits data => exact Value.bits.inj hv
    | real | string | event => exact List.map_replicate

/-- A known value is owned. -/
theorem Waveform.value_owned {source : Nat → Option Value} (htyped : TypedSource w source)
    {signal : Signal} (h : w.Valid signal) {v : Value} (hv : w.value source signal = some v) :
    v.toOwned = v ∧ v.isEvent = false := by
  refine induct (P := fun signal => ∀ v, w.value source signal = some v →
    v.toOwned = v ∧ v.isEvent = false) ?_ ?_ h v hv
  · intro signal _ hc v hv
    rw [value_source hc] at hv
    obtain ⟨u, hu, rfl⟩ := Option.map_eq_some_iff.1 hv
    obtain ⟨howned, hevent, -⟩ := htyped _ u hu
    exact ⟨by rw [toOwned_project, howned], by rw [isEvent_project, hevent]⟩
  · intro signal hvalid hc ih v hv
    have hlt := hvalid.index_lt hc
    rw [value_slice hc hlt, value_concat (show signal.base.computed = true from hc)
      (base_isSlice _) hlt] at hv
    obtain ⟨u, hu, rfl⟩ := Option.map_eq_some_iff.1 hv
    unfold assemble at hu
    split at hu
    · cases hu
      refine ⟨?_, by rw [isEvent_project]; rfl⟩
      rw [toOwned_project]
      congr 1
      simp only [Value.toOwned, List.map_flatMap, Value.bits.injEq]
      refine List.flatMap_congr fun p hp => ?_
      obtain ⟨part, hpart, rfl⟩ := List.mem_map.1 hp
      exact partDigits_owned fun v hv => (ih part hpart v hv).1
    · cases hu

end

/-! ## One tick of a stream -/

section
variable {w : Waveform} {recs more : List Record} {signal : Signal} {s t : Nat}

/-- A write of a history at a tick is a record of the tick. -/
theorem mem_recorded_of_history {base : Nat} {e : Nat × Value} (h : e ∈ history recs base) :
    e.1 ∈ recorded recs := by
  obtain ⟨r, hr, -, -, rfl⟩ := mem_history h
  exact List.mem_map_of_mem hr

/-- The ticks of an ordered stream are in order. -/
theorem recorded_sorted (h : Chronological recs) : (recorded recs).Pairwise (· ≤ ·) :=
  List.Pairwise.map _ (fun _ _ hab => hab) h

/-- The ticks of an ordered stream increase. -/
theorem ticksOf_increasing (h : Chronological recs) : (ticksOf recs).Pairwise (· < ·) := by
  have hle := (recorded_sorted h).sublist (List.dedup_sublist (recorded recs))
  have hne : (ticksOf recs).Pairwise (· ≠ ·) := List.nodup_dedup _
  exact (hle.and hne).imp fun hab => Nat.lt_of_le_of_ne hab.1 hab.2

theorem mem_ticksOf : t ∈ ticksOf recs ↔ ∃ r ∈ recs, r.time = t := by
  rw [ticksOf, List.mem_dedup, recorded, List.mem_map]

theorem Typed.valueAt (h : Typed w recs) (t : Nat) :
    TypedSource w fun i => (history recs i).valueAt t :=
  h.source fun _ _ => History.valueAt_mem

theorem Typed.enteringAt (h : Typed w recs) (t : Nat) :
    TypedSource w fun i => (history recs i).entering t :=
  h.source fun _ _ => History.entering_mem

/-- A tick that writes nothing of a handle leaves what entered it. -/
theorem Waveform.valueAt_quiet (hvalid : w.Valid signal) (h : w.writtenAt recs signal t = false) :
    w.valueAt recs signal t = w.enteringAt recs signal t := by
  refine value_congr (fun i hi => ?_) hvalid h
  refine History.valueAt_quiet fun e he heq => ?_
  rw [written, List.any_eq_false] at hi
  exact hi e he (by simpa using heq)

/-- A tick that writes a handle leaves a value. -/
theorem Waveform.valueAt_written (htyped : Typed w recs) (hvalid : w.Valid signal)
    (h : w.writtenAt recs signal t = true) : ∃ v, w.valueAt recs signal t = some v := by
  refine Option.isSome_iff_exists.1 ?_
  rw [Waveform.valueAt, value_isSome (htyped.valueAt t) hvalid]
  refine touched_mono (fun i hi => ?_) hvalid h
  rw [written, List.any_eq_true] at hi
  obtain ⟨e, he, heq⟩ := hi
  exact History.valueAt_isSome he (by simpa using Nat.le_of_eq (by simpa using heq))

/-- A tick that writes a handle is recorded. -/
theorem Waveform.writtenAt_recorded (hvalid : w.Valid signal)
    (h : w.writtenAt recs signal t = true) : t ∈ recorded recs := by
  by_contra hnot
  have hnone : ∀ i, written recs t i = false := by
    intro i
    rw [written, List.any_eq_false]
    intro e he heq
    exact hnot (by simpa using (of_decide_eq_true heq) ▸ mem_recorded_of_history he)
  have hfalse : w.touched (fun _ => false) signal = true :=
    touched_mono (fun i hi => by rw [hnone i] at hi; exact hi) hvalid h
  exact absurd hfalse (by rw [touched_false hvalid]; decide)

/-- What is unknown at a tick was unknown before. -/
theorem Waveform.enteringAt_mono (htyped : Typed w recs) (hvalid : w.Valid signal) (hst : s ≤ t)
    (h : w.enteringAt recs signal t = none) : w.enteringAt recs signal s = none := by
  rw [← Option.not_isSome_iff_eq_none, Bool.not_eq_true] at h ⊢
  rw [Waveform.enteringAt, value_isSome (htyped.enteringAt _) hvalid] at h ⊢
  refine Bool.eq_false_iff.2 fun htrue => ?_
  have := touched_mono (fun i hi => History.entering_isSome_mono hst hi) hvalid htrue
  rw [h] at this
  cases this

/-- The state a tick leaves is the state that enters the next tick. -/
theorem Waveform.enteredAt_succ :
    w.enteredAt recs signal (t + 1) = w.committedAt recs signal t := by
  have hvalue : w.enteringAt recs signal (t + 1) = w.valueAt recs signal t := by
    unfold Waveform.enteringAt Waveform.valueAt
    congr 1
    funext i
    exact History.entering_succ
  unfold Waveform.enteredAt Waveform.committedAt
  exact entered_eq (Nat.lt_succ_self t) hvalue fun τ _ h1 h2 => by omega

/-- A tick settles the handles it writes and leaves the others. -/
theorem Waveform.committedAt_eq (hsorted : Chronological recs) (htyped : Typed w recs)
    (hvalid : w.Valid signal) : w.committedAt recs signal t =
      match (if w.writtenAt recs signal t then w.valueAt recs signal t else none) with
      | some v => settle t v (w.enteredAt recs signal t)
      | none => w.enteredAt recs signal t := by
  cases hwritten : w.writtenAt recs signal t with
  | false => exact committed_quiet (valueAt_quiet hvalid hwritten)
  | true =>
    obtain ⟨v, hv⟩ := valueAt_written htyped hvalid hwritten
    rw [if_pos rfl, hv]
    exact committed_settle (recorded_sorted hsorted) (writtenAt_recorded hvalid hwritten) hv
      fun hnone τ _ hτ => enteringAt_mono htyped hvalid hτ.le hnone

/-- No record between two ticks: the same state enters both. -/
theorem Waveform.enteredAt_quiet (hst : s ≤ t) (h : ∀ r ∈ recs, r.time < s ∨ t ≤ r.time) :
    w.enteredAt recs signal t = w.enteredAt recs signal s := by
  have hvalue : w.enteringAt recs signal t = w.enteringAt recs signal s := by
    unfold Waveform.enteringAt
    congr 1
    funext i
    refine History.entering_congr fun e he => ?_
    obtain ⟨r, hr, -, -, rfl⟩ := mem_history he
    have := h r hr
    show r.time < t ↔ r.time < s
    omega
  unfold Waveform.enteredAt entered
  rw [hvalue]
  congr 1
  funext v
  congr 1
  refine lastTick_congr fun τ hτ => ?_
  obtain ⟨r, hr, rfl⟩ := List.mem_map.1 hτ
  have := h r hr
  congr 1
  rw [decide_eq_decide]
  omega

/-! ## Later records -/

/-- Later records do not change the value a tick leaves. -/
theorem Waveform.valueAt_append (h : ∀ r ∈ more, t < r.time) :
    w.valueAt (recs ++ more) signal t = w.valueAt recs signal t := by
  unfold Waveform.valueAt
  congr 1
  funext i
  rw [history_append]
  refine History.valueAt_append_later fun e he => ?_
  obtain ⟨r, hr, -, -, rfl⟩ := mem_history he
  exact h r hr

/-- Records from a tick on do not change the value that enters it. -/
theorem Waveform.enteringAt_append (h : ∀ r ∈ more, t ≤ r.time) :
    w.enteringAt (recs ++ more) signal t = w.enteringAt recs signal t := by
  unfold Waveform.enteringAt
  congr 1
  funext i
  rw [history_append]
  refine History.entering_append_later fun e he => ?_
  obtain ⟨r, hr, -, -, rfl⟩ := mem_history he
  exact h r hr

/-- Records from a tick on do not change the state that enters it. -/
theorem Waveform.enteredAt_append (h : ∀ r ∈ more, t ≤ r.time) :
    w.enteredAt (recs ++ more) signal t = w.enteredAt recs signal t := by
  unfold Waveform.enteredAt entered
  rw [enteringAt_append h, recorded_append]
  congr 1
  funext v
  congr 1
  rw [lastTick_append_of_false]
  · refine lastTick_congr fun τ _ => ?_
    by_cases hlt : τ < t
    · have hle : ∀ r ∈ more, τ < r.time := fun r hr => Nat.lt_of_lt_of_le hlt (h r hr)
      rw [valueAt_append hle, enteringAt_append fun r hr => (hle r hr).le]
    · simp [hlt]
  · intro τ hτ
    obtain ⟨r, hr, rfl⟩ := List.mem_map.1 hτ
    simp [Nat.not_lt.2 (h r hr)]

/-- Later records do not change the state a tick leaves. -/
theorem Waveform.committedAt_append (h : ∀ r ∈ more, t < r.time) :
    w.committedAt (recs ++ more) signal t = w.committedAt recs signal t := by
  rw [← enteredAt_succ, ← enteredAt_succ, enteredAt_append fun r hr => h r hr]

/-- Later records do not write a tick. -/
theorem Waveform.writtenAt_append (h : ∀ r ∈ more, r.time ≠ t) :
    w.writtenAt (recs ++ more) signal t = w.writtenAt recs signal t := by
  unfold Waveform.writtenAt
  congr 1
  funext i
  unfold written
  rw [history_append, List.any_append, Bool.or_eq_left_iff_imp]
  intro hany
  obtain ⟨e, he, heq⟩ := List.any_eq_true.1 hany
  obtain ⟨r, hr, -, -, rfl⟩ := mem_history he
  exact absurd (of_decide_eq_true heq) (h r hr)

/-- Records of other ticks count no events at a tick. -/
theorem eventsAt_none {base : Nat} (h : ∀ r ∈ recs, r.time ≠ t) : eventsAt recs base t = 0 := by
  have hnone : (recs.filter fun r => decide (r.base = base ∧ r.time = t)) = [] :=
    List.filter_eq_nil_iff.2 fun r hr => by simp [h r hr]
  rw [eventsAt, hnone]
  rfl

/-- Later records do not count at a tick. -/
theorem countAt_append (h : ∀ r ∈ more, r.time ≠ t) :
    countAt (recs ++ more) signal t = countAt recs signal t := by
  unfold countAt
  rw [eventsAt_append, eventsAt_none h, Nat.add_zero]

end
end Ondas.Query
