import Ondas.Library.Cells
import Ondas.Value

/-!
# Waveforms and compositions

`Waveform` is what a selection needs of an open waveform: the encodings of its source signals and
the compositions registered so far (`Waveform.concat`). A composition's parts are handles that were
valid before it, so the definitions never refer forward; the structure carries that.

`Waveform.evaluate` gives every handle a meaning: a leaf for a source history, a join over the parts
of a composition, and a view for the bits a handle selects. With values as leaves it is the value of
a composition (`Waveform.value`); with the question whether a history was written it says whether a
tick touches it (`Waveform.touched`).
-/

namespace Ondas.Query

open Library

/-! ## Handles -/

/-- The handle is its base history as a whole or a slice inside its width. A width is a `u32`, so a
sum up to `base` does not overflow. -/
def inBase (signal : Signal) : Bool :=
  match signal.baseEncoding, signal.encoding with
  | .bits base, .bits width =>
    (decide (0 < width) || signal == signal.base) && decide (signal.lsb + width ≤ base)
  | base, current => base == current && signal.lsb == 0

/-- `Hierarchy::validate_encoding`. -/
def validateEncoding (source : Nat) (signal : Signal) (encoding : Option Encoding) :
    Except Error Nat :=
  if signal.source == source && encoding == some signal.baseEncoding && inBase signal then
    .ok signal.index
  else .error (.invalidSignal signal)

/-- A registered composition. -/
structure Definition where
  parts : List Signal
  width : Nat
  deriving DecidableEq, Repr

/-- The encoding a handle's index names: a source history's, or the bits of a composition. -/
def encodingOf (encodings : List Encoding) (definitions : List Definition) (signal : Signal) :
    Option Encoding :=
  if signal.computed then definitions[signal.index]?.map fun d => .bits d.width
  else encodings[signal.index]?

/-- `Waveform::validate`. -/
def validate (source : Nat) (encodings : List Encoding) (definitions : List Definition)
    (signal : Signal) : Except Error Nat :=
  validateEncoding source signal (encodingOf encodings definitions signal)

/-- The check of one part in `Waveform::concat`: a nonempty bit handle. -/
def partWidth (source : Nat) (encodings : List Encoding) (definitions : List Definition)
    (part : Nat) (signal : Signal) : Except Error Nat :=
  match validate source encodings definitions signal with
  | .error e => .error e
  | .ok _ =>
    if signal.encoding = .unsupported then .error (.unsupportedSignal signal)
    else match signal.width with
      | none => .error (.invalidComposition (.notBits part signal))
      | some 0 => .error (.invalidComposition (.emptyPart part signal))
      | some width => .ok width

/-- The loop of `Waveform::concat`: the parts are checked in order and their widths add up within
`u32`. -/
def partWidths (source : Nat) (encodings : List Encoding) (definitions : List Definition) :
    Nat → Nat → List Signal → Except Error Nat
  | _, width, [] => .ok width
  | part, width, signal :: rest =>
    match partWidth source encodings definitions part signal with
    | .error e => .error e
    | .ok w =>
      if width + w < 2 ^ 32 then partWidths source encodings definitions (part + 1) (width + w) rest
      else .error (.invalidComposition .widthOverflow)

/-- A handle that passed the check of a part. -/
structure Operand (source : Nat) (encodings : List Encoding) (definitions : List Definition)
    (signal : Signal) : Prop where
  valid : validate source encodings definitions signal = .ok signal.index
  bits : ∃ width, signal.encoding = .bits width

/-- An open waveform, as far as a selection looks at it. -/
structure Waveform where
  source : Nat
  encodings : List Encoding
  definitions : List Definition
  timeSpan : Option TimeSpan
  /-- A part was valid when its composition was registered. -/
  operands : ∀ i d, definitions[i]? = some d →
    ∀ part ∈ d.parts, Operand source encodings (definitions.take i) part

/-- A handle inside its base is two bit vectors or the same encoding. -/
theorem inBase_cases {signal : Signal} (h : inBase signal = true) :
    (∃ base width, signal.baseEncoding = .bits base ∧ signal.encoding = .bits width) ∨
      signal.encoding = signal.baseEncoding ∧ signal.lsb = 0 := by
  unfold inBase at h
  split at h
  · next base width hbase hwidth => exact .inl ⟨base, width, hbase, hwidth⟩
  · simp only [Bool.and_eq_true, beq_iff_eq] at h
    exact .inr ⟨h.1.symm, h.2⟩

/-- A valid handle is of this source, has the encoding its index names, and lies in its base. -/
theorem validateEncoding_ok {source i : Nat} {signal : Signal} {encoding : Option Encoding}
    (h : validateEncoding source signal encoding = .ok i) :
    i = signal.index ∧ signal.source = source ∧ encoding = some signal.baseEncoding ∧
      inBase signal = true := by
  unfold validateEncoding at h
  split at h
  · next hvalid =>
    simp only [Bool.and_eq_true, beq_iff_eq] at hvalid
    cases h
    exact ⟨rfl, hvalid.1.1, hvalid.1.2, hvalid.2⟩
  · cases h

/-- A part that passed its check is an operand. -/
theorem partWidth_ok {source : Nat} {encodings : List Encoding} {definitions : List Definition}
    {part width : Nat} {signal : Signal}
    (h : partWidth source encodings definitions part signal = .ok width) :
    Operand source encodings definitions signal := by
  unfold partWidth at h
  split at h
  · cases h
  next i hi =>
  have hindex := (validateEncoding_ok hi).1
  split at h
  · cases h
  refine ⟨hindex ▸ hi, ?_⟩
  cases hencoding : signal.encoding with
  | bits w => exact ⟨w, rfl⟩
  | real | string | event | unsupported => simp [Signal.width, hencoding] at h

/-- Parts that passed the loop are operands. -/
theorem partWidths_ok {source : Nat} {encodings : List Encoding} {definitions : List Definition}
    {part width total : Nat} {parts : List Signal}
    (h : partWidths source encodings definitions part width parts = .ok total) :
    ∀ signal ∈ parts, Operand source encodings definitions signal := by
  induction parts generalizing part width with
  | nil => nofun
  | cons signal parts ih =>
    unfold partWidths at h
    split at h
    · cases h
    next w hw =>
    split at h
    · intro s hs
      rcases List.mem_cons.1 hs with rfl | hs
      · exact partWidth_ok hw
      · exact ih h s hs
    · cases h

namespace Waveform

/-- `Hierarchy::computed_signal`: the handle of a whole composition. -/
def computedSignal (w : Waveform) (index width : Nat) : Signal :=
  { source := w.source
    index := index
    computed := true
    baseEncoding := .bits width
    encoding := .bits width
    lsb := 0 }

/-- Register a composition of operands. -/
def register (w : Waveform) (parts : List Signal) (width : Nat)
    (h : ∀ signal ∈ parts, Operand w.source w.encodings w.definitions signal) : Waveform :=
  { w with
    definitions := w.definitions ++ [⟨parts, width⟩]
    operands := by
      intro i d hd part hpart
      rcases Nat.lt_or_ge i w.definitions.length with hlt | hge
      · rw [List.getElem?_append_left hlt] at hd
        rw [List.take_append_of_le_length (Nat.le_of_lt hlt)]
        exact w.operands i d hd part hpart
      · rw [List.getElem?_append_right hge] at hd
        have hi : i = w.definitions.length := by
          by_contra hne
          rw [List.getElem?_eq_none (by simp; omega)] at hd
          cases hd
        subst hi
        rw [Nat.sub_self] at hd
        cases hd
        rw [List.take_left]
        exact h part hpart }

/-- `Waveform::concat`. A request that fails registers nothing; one part is its own composition, and
equal parts share one definition. -/
def concat (w : Waveform) (parts : List Signal) : Except Error (Waveform × Signal) :=
  match parts with
  | [] => .error (.invalidComposition .empty)
  | [part] =>
    match partWidths w.source w.encodings w.definitions 0 0 [part] with
    | .error e => .error e
    | .ok _ => .ok (w, part)
  | parts =>
    match h : partWidths w.source w.encodings w.definitions 0 0 parts with
    | .error e => .error e
    | .ok width =>
      match w.definitions.findIdx? fun d => d.parts = parts with
      | some index => .ok (w, w.computedSignal index width)
      | none =>
        .ok (w.register parts width (partWidths_ok h),
          w.computedSignal w.definitions.length width)

/-- `Waveform::composition_parts`. -/
def compositionParts (w : Waveform) (signal : Signal) : List Signal :=
  (w.definitions[signal.index]?.map Definition.parts).getD []

/-- The handle is valid in this waveform. -/
def Valid (w : Waveform) (signal : Signal) : Prop :=
  validate w.source w.encodings w.definitions signal = .ok signal.index

end Waveform

/-! ## Meaning by evaluation -/

section
variable {α : Type*} (leaf : Nat → α) (view : Signal → α → α) (join : List (Signal × α) → α)

/-- The meaning of a handle, given the meanings of the compositions before it. -/
def operand (entries : List α) (signal : Signal) : α :=
  view signal (if signal.computed then (entries[signal.index]?).getD
  (join []) else leaf signal.index)

/-- The meaning of a composition, given the meanings of the compositions before it. -/
def composition (entries : List α) (d : Definition) : α :=
  join (d.parts.map fun part => (part, operand leaf view join entries part))

/-- The meaning of a handle. -/
def Waveform.evaluate (w : Waveform) (signal : Signal) : α :=
  operand leaf view join (table (composition leaf view join) w.definitions) signal

variable {leaf view join}

/-- The meaning of a source handle. -/
theorem Waveform.evaluate_source {w : Waveform} {signal : Signal} (h : signal.computed = false) :
    w.evaluate leaf view join signal = view signal (leaf signal.index) := by
  simp [Waveform.evaluate, operand, h]

/-- A part only looks at the compositions before its own. -/
theorem operand_take {entries : List α} {signal : Signal} {n : Nat}
    (h : signal.computed = true → signal.index < n) :
    operand leaf view join (entries.take n) signal = operand leaf view join entries signal := by
  unfold operand
  cases hc : signal.computed with
  | false => rfl
  | true => rw [if_pos rfl, if_pos rfl, List.getElem?_take_of_lt (h hc)]

/-- A valid computed handle names a definition. -/
theorem Operand.index_lt {source : Nat} {encodings : List Encoding} {definitions : List Definition}
    {signal : Signal} (h : Operand source encodings definitions signal)
    (hc : signal.computed = true) : signal.index < definitions.length := by
  have hencoding := (validateEncoding_ok h.valid).2.2.1
  simp only [encodingOf, hc, if_true] at hencoding
  by_contra hge
  rw [List.getElem?_eq_none (by omega)] at hencoding
  cases hencoding

/-- The meaning of a computed handle: its view of the join of the parts. -/
theorem Waveform.evaluate_computed {w : Waveform} {signal : Signal} (h : signal.computed = true)
    (hlt : signal.index < w.definitions.length) :
    w.evaluate leaf view join signal = view signal
      (join ((w.compositionParts signal).map fun part =>
        (part, w.evaluate leaf view join part))) := by
  obtain ⟨d, hd⟩ : ∃ d, w.definitions[signal.index]? = some d := ⟨_, List.getElem?_eq_getElem hlt⟩
  have hparts : w.compositionParts signal = d.parts := by simp [Waveform.compositionParts, hd]
  unfold Waveform.evaluate operand
  rw [if_pos h, table_getElem?, hd, Option.map_some, Option.getD_some, composition, hparts]
  congr 2
  refine List.map_congr_left fun part hpart => ?_
  have hop := w.operands _ d hd part hpart
  have hlt' : part.computed = true → part.index < signal.index := fun hc => by
    have := hop.index_lt hc
    rw [List.length_take] at this
    omega
  rw [operand_take hlt']
  rfl

end

/-! ## Values of handles -/

/-- The digits a composition takes of a part: those of its value, or `x` when it is missing. -/
def partDigits : Signal × Option Value → List UInt8
  | (part, value) => (value.bind Value.digits?).getD (List.replicate (part.width.getD 0) 120)

/-- A part has observed bits. -/
def observed : Signal × Option Value → Bool
  | (_, value) => (value.bind Value.digits?).isSome

/-- The value of a composition: its parts in order, missing parts filled with `x`, and missing
itself when no part is observed. -/
def assemble (parts : List (Signal × Option Value)) : Option Value :=
  if parts.any observed then some (.bits (parts.flatMap partDigits)) else none

namespace Waveform

/-- The value of a handle, from the values of the source histories. -/
def value (w : Waveform) (history : Nat → Option Value) : Signal → Option Value :=
  w.evaluate history (fun signal v => v.map (project · signal)) assemble

/-- A handle depends on a written history. -/
def touched (w : Waveform) (written : Nat → Bool) : Signal → Bool :=
  w.evaluate written (fun _ b => b) (fun parts => parts.any Prod.snd)

/-- The value of a source handle is the projection of its history. -/
theorem value_source {w : Waveform} {history : Nat → Option Value} {signal : Signal}
    (h : signal.computed = false) :
    w.value history signal = (history signal.index).map (project · signal) :=
  evaluate_source h

theorem touched_source {w : Waveform} {written : Nat → Bool} {signal : Signal}
    (h : signal.computed = false) : w.touched written signal = written signal.index :=
  evaluate_source h

/-- A whole handle reads a value whole. -/
theorem project_whole {v : Value} {signal : Signal} (h : signal.isSlice = false) :
    project v signal = v := by
  cases v <;> simp [project, h]

/-- The value of a whole composition. -/
theorem value_concat {w : Waveform} {history : Nat → Option Value} {signal : Signal}
    (h : signal.computed = true) (hslice : signal.isSlice = false)
    (hlt : signal.index < w.definitions.length) :
    w.value history signal =
      assemble ((w.compositionParts signal).map fun part => (part, w.value history part)) := by
  have heq : (fun v : Value => project v signal) = id := funext fun v => project_whole hslice
  rw [value, evaluate_computed h hlt, heq, Option.map_id]
  rfl

theorem base_isSlice (signal : Signal) : signal.base.isSlice = false := by
  simp [Signal.isSlice, Signal.base]

/-- The value of a slice of a composition. -/
theorem value_slice {w : Waveform} {history : Nat → Option Value} {signal : Signal}
    (h : signal.computed = true) (hlt : signal.index < w.definitions.length) :
    w.value history signal = (w.value history signal.base).map (project · signal) := by
  have hbase : signal.base.computed = true := h
  rw [value_concat hbase (base_isSlice signal) hlt, value, evaluate_computed h hlt]
  rfl

/-- A composition is touched when a part is. -/
theorem touched_computed {w : Waveform} {written : Nat → Bool} {signal : Signal}
    (h : signal.computed = true) (hlt : signal.index < w.definitions.length) :
    w.touched written signal = (w.compositionParts signal).any (w.touched written) := by
  rw [touched, evaluate_computed h hlt, List.any_map]
  rfl

end Waveform
end Ondas.Query
