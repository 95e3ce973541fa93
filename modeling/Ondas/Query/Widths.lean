import Ondas.Query.Alike
import Ondas.Query.Registry

/-!
# The widths of values

A bit value has as many digits as its encoding says (`SizedTo`). Slicing trusts that: `project` and
`BitsRef::slice` subtract without a check. `projectChecked` is `project` where a subtraction or a
sum of machine words that does not fit, and an index out of range, is none. On a sized value of the
base of a valid handle it is `project`, and the digits are as many as the handle has
(`Valid.projects`).

A traversal of sized deliveries keeps each slot sized by the encoding of its handle (`AllSized`),
for the parts of a composition add up to its width; so do all operations on a selection of a reader
that hands over sized values (`ReachedIn.sized`).
-/

namespace Ondas.Query

open Library
open Vcd (Position)

/-! ## SizedTo values -/

/-- A value of an encoding with bits has the digits of its width. -/
def SizedTo (encoding : Encoding) (value : Value) : Prop :=
  ∀ width, encoding = .bits width → ∃ digits, value = .bits digits ∧ digits.length = width

/-- A value of a source history has the digits of its width. -/
def SizedAt (encodings : List Encoding) (base : Nat) (value : Value) : Prop :=
  ∀ encoding, encodings[base]? = some encoding → SizedTo encoding value

/-- Owned values have the same digits. -/
theorem SizedTo.toOwned {encoding : Encoding} {value : Value} (h : SizedTo encoding value) :
    SizedTo encoding value.toOwned := fun width hwidth => by
  obtain ⟨digits, rfl, hlength⟩ := h width hwidth
  exact ⟨_, rfl, (List.length_map _).trans hlength⟩

/-! ## Checked projections -/

/-- `BitsRef::slice`, where an index that is out of range is none. -/
def sliceChecked (data : List UInt8) (msb lsb : Nat) : Option (List UInt8) :=
  if lsb ≤ data.length ∧ msb + 1 ≤ data.length ∧ data.length - msb - 1 ≤ data.length - lsb then
    some (sliceDigits data msb lsb)
  else none

/-- `project`, where arithmetic that does not fit `u32` and an index out of range are none. -/
def projectChecked (value : Value) (signal : Signal) : Option Value :=
  match value with
  | .bits data =>
    if signal.isSlice then
      match signal.width with
      | none => none
      | some width =>
        if signal.lsb + width < 2 ^ 32 ∧ 1 ≤ signal.lsb + width then
          (sliceChecked data (signal.lsb + width - 1) signal.lsb).map .bits
        else none
    else some value
  | _ => some value

/-- The widths of a waveform fit `u32`, and a composition has the width of its parts together. -/
structure Waveform.Measured (w : Waveform) : Prop where
  encodings : ∀ width, .bits width ∈ w.encodings → width < 2 ^ 32
  definitions : ∀ (i : Nat) (d : Definition), w.definitions[i]? = some d →
    d.width = totalWidth d.parts ∧ d.width < 2 ^ 32

/-- The compositions of a registry are measured. -/
theorem Registry.Sound.measured {r : Registry} (h : r.Sound)
    (hu32 : ∀ width, .bits width ∈ r.encodings → width < 2 ^ 32) : (r.waveform h).Measured :=
  ⟨hu32, fun i d hd => ⟨(h.widths i d hd).1, (h.widths i d hd).2.1⟩⟩

section
variable {w : Waveform} {s : Signal} {v : Value}

/-- A handle with a width is one of bits. -/
theorem encoding_of_width {width : Nat} (h : s.width = some width) : s.encoding = .bits width := by
  unfold Signal.width at h
  split at h
  · next width' heq => rw [heq, Option.some.inj h]
  · cases h

/-- A handle with the encoding of its base is whole. -/
theorem isSlice_whole (hsame : s.encoding = s.baseEncoding) (hlsb : s.lsb = 0) :
    s.isSlice = false := by
  obtain ⟨source, index, computed, baseEncoding, encoding, lsb⟩ := s
  obtain rfl : encoding = baseEncoding := hsame
  obtain rfl : lsb = 0 := hlsb
  exact Waveform.base_isSlice ⟨source, index, computed, encoding, encoding, 0⟩

/-- The base of a valid handle is a `u32` wide. -/
theorem Waveform.Valid.base_lt (hmeasured : w.Measured) (h : w.Valid s) {base : Nat}
    (hbase : s.baseEncoding = .bits base) : base < 2 ^ 32 := by
  have hencoding := (validateEncoding_ok h).2.2.1
  rw [hbase, encodingOf] at hencoding
  split at hencoding
  · obtain ⟨d, hd, heq⟩ := Option.map_eq_some_iff.1 hencoding
    cases heq
    exact (hmeasured.definitions _ d hd).2
  · exact hmeasured.encodings base (List.mem_of_getElem? hencoding)

/-- The end of a valid handle is a `u32`, and a slice has digits. -/
theorem Waveform.Valid.range (hmeasured : w.Measured) (h : w.Valid s) {width : Nat}
    (hwidth : s.width = some width) :
    s.lsb + width < 2 ^ 32 ∧ (s.isSlice = true → 0 < width) := by
  have hbits := encoding_of_width hwidth
  rcases inBase_cases (validateEncoding_ok h).2.2.2 with ⟨base, width', hbase, hwidth'⟩ |
    ⟨hsame, hlsb⟩
  · cases hbits.symm.trans hwidth'
    obtain ⟨hinside, hpos⟩ := h.inside hbase hbits
    refine ⟨hinside.trans_lt (h.base_lt hmeasured hbase), fun hslice => ?_⟩
    rcases hpos with hpos | hwhole
    · exact hpos
    · rw [hwhole, Waveform.base_isSlice] at hslice
      cases hslice
  · rw [hlsb, Nat.zero_add]
    refine ⟨h.base_lt hmeasured (hsame.symm.trans hbits), fun hslice => ?_⟩
    rw [isSlice_whole hsame hlsb] at hslice
    cases hslice

/-- **Projections stay inside.** For a valid handle and a value as wide as its base, no sum or
subtraction of `project` leaves its range, and the result is as wide as the handle. -/
theorem Waveform.Valid.projects (hmeasured : w.Measured) (h : w.Valid s)
    (hv : SizedTo s.baseEncoding v) :
    projectChecked v s = some (project v s) ∧ SizedTo s.encoding (project v s) := by
  rcases inBase_cases (validateEncoding_ok h).2.2.2 with
    ⟨base, width, hbase, hwidth⟩ | ⟨hsame, hlsb⟩
  · obtain ⟨data, rfl, hdata⟩ := hv base hbase
    obtain ⟨hinside, hpos⟩ := h.inside hbase hwidth
    have hlt := h.base_lt hmeasured hbase
    cases hslice : s.isSlice with
    | false =>
      have hwhole : s = s.base := by simpa [Signal.isSlice] using hslice
      have hencoding : s.encoding = s.baseEncoding := congrArg Signal.encoding hwhole
      rw [Waveform.project_whole hslice, hencoding]
      exact ⟨by simp [projectChecked, hslice], hv⟩
    | true =>
      have hpositive : 0 < width := by
        rcases hpos with hpos | hwhole
        · exact hpos
        · rw [hwhole, Waveform.base_isSlice] at hslice
          cases hslice
      have hsome : s.width = some width := by rw [Signal.width, hwidth]
      have hlength : (sliceDigits data (s.lsb + width - 1) s.lsb).length = width := by
        rw [length_sliceDigits (by omega) (by omega)]
        omega
      rw [Signal.project_eq hbase hwidth hpositive hdata]
      refine ⟨?_, fun width' heq => ?_⟩
      · simp only [projectChecked, hslice, if_true, hsome]
        rw [if_pos ⟨by omega, by omega⟩, sliceChecked, if_pos ⟨by omega, by omega, by omega⟩]
        rfl
      · rw [hwidth, Encoding.bits.injEq] at heq
        exact ⟨_, rfl, hlength.trans heq⟩
  · have hslice := isSlice_whole hsame hlsb
    rw [Waveform.project_whole hslice]
    refine ⟨?_, hsame ▸ hv⟩
    cases v <;> simp [projectChecked, hslice]

end

/-! ## SizedTo slots -/

/-- The values of a slot are as wide as the handle in it. -/
structure Slot.SizedFor (signal : Signal) (slot : Slot) : Prop where
  state : ∀ state, slot.state = some state → SizedTo signal.encoding state.value
  pending : ∀ value, slot.pending = some value → SizedTo signal.encoding value

/-- The slots of some handles are sized. -/
def AllSized (signals : List Signal) (slots : List Slot) : Prop :=
  ∀ i signal, signals[i]? = some signal → (slotAt slots i).SizedFor signal

section
variable {w : Waveform} {plan : Plan} {signals : List Signal} {signal : Signal} {slots : List Slot}
  {slot : Slot}

variable (signal) in
theorem Slot.empty_sized : Slot.empty.SizedFor signal := ⟨nofun, nofun⟩

/-- The value of a sized slot is sized. -/
theorem Slot.SizedFor.current (h : slot.SizedFor signal) {v : Value} (hv : slot.current = some v) :
    SizedTo signal.encoding v := by
  rcases Option.or_eq_some_iff.1 hv with hpending | ⟨-, hcommitted⟩
  · exact h.pending v hpending
  · obtain ⟨state, hstate, rfl⟩ := Option.map_eq_some_iff.1 hcommitted
    exact h.state state hstate

/-- A slot stays sized when a sized value is written. -/
theorem Slot.SizedFor.write (h : slot.SizedFor signal) {v : Value}
    (hv : SizedTo signal.encoding v) :
    ({ slot with pending := some v } : Slot).SizedFor signal :=
  ⟨h.state, fun _ heq => Option.some.inj heq ▸ hv⟩

theorem Slot.SizedFor.compare (h : slot.SizedFor signal) : slot.compare.SizedFor signal :=
  ⟨h.state, h.pending⟩

/-- A slot stays sized when its pending value is committed. -/
theorem Slot.SizedFor.commit (t : Nat) (h : slot.SizedFor signal) :
    (slot.commit t).SizedFor signal := by
  refine ⟨fun state hstate => ?_, nofun⟩
  simp only [Slot.commit] at hstate
  split at hstate
  · next v hv =>
    split at hstate
    · cases hstate
      exact h.pending v hv
    · exact h.state state hstate
  · exact h.state state hstate

/-- A change of one slot that keeps it sized. -/
theorem AllSized.modify (h : AllSized signals slots) {i : Nat} {f : Slot → Slot}
    (hf : ∀ signal slot, signals[i]? = some signal → slot.SizedFor signal →
      (f slot).SizedFor signal) :
    AllSized signals (slots.modify i f) := by
  intro j signal hj
  have hslot := h j signal hj
  by_cases hij : i = j
  · subst hij
    unfold slotAt at hslot ⊢
    rw [List.getElem?_modify_eq]
    cases hget : slots[i]? with
    | none => exact Slot.empty_sized signal
    | some slot =>
      rw [hget] at hslot
      exact hf signal slot hj hslot
  · rw [slotAt_modify_ne f hij]
    exact hslot

/-- A change of several slots that keeps each sized. -/
theorem AllSized.modifyAll {f : Slot → Slot}
    (hf : ∀ signal slot, slot.SizedFor signal → (f slot).SizedFor signal) (positions : List Nat)
    (h : AllSized signals slots) : AllSized signals (modifyAll f slots positions) := by
  induction positions generalizing slots with
  | nil => exact h
  | cons i positions ih => exact ih (h.modify fun signal slot _ => hf signal slot)

variable (signals) in
/-- Empty slots are sized. -/
theorem allSized_empty (n : Nat) : AllSized signals (List.replicate n .empty) := by
  intro i signal _
  have hempty : slotAt (List.replicate n .empty) i = .empty := by
    unfold slotAt
    rw [List.getElem?_replicate]
    split <;> rfl
  rw [hempty]
  exact Slot.empty_sized signal

/-! ## Computed slots -/

/-- A computation fills the slot of its handle from the slots of its operands. -/
inductive Fills (w : Waveform) (signals : List Signal) : Computation → Prop
  | slice {slot input : Nat} {signal : Signal} : signals[slot]? = some signal →
      signals[input]? = some signal.base → Fills w signals (.slice slot input signal)
  | concat {slot width : Nat} {inputs : List (Nat × Nat)} {signal : Signal} :
      signals[slot]? = some signal → signal.computed = true → signal.isSlice = false →
      List.Forall₂ (fun part input => signals[input.1]? = some part ∧ input.2 = part.width.getD 0)
        (w.compositionParts signal) inputs →
      Fills w signals (.concat slot inputs width)

/-- A computation fills its slot also when handles are appended. -/
theorem Fills.append {c : Computation} (more : List Signal) (h : Fills w signals c) :
    Fills w (signals ++ more) c := by
  cases h with
  | slice hslot hinput =>
    exact .slice (getElem?_append_of_some hslot) (getElem?_append_of_some hinput)
  | concat hslot hc hslice hinputs =>
    exact .concat (getElem?_append_of_some hslot) hc hslice
      (hinputs.imp fun part input h => ⟨getElem?_append_of_some h.1, h.2⟩)

/-- The computations of a plan fill its slots. -/
theorem Computes.fills {computations : List Computation} (h : Computes w signals computations) :
    ∀ c ∈ computations, Fills w signals c := by
  induction h with
  | nil => exact nofun
  | source _ _ ih => exact fun c hc => (ih c hc).append _
  | slice _ _ _ hinput ih =>
    intro c hc
    rcases List.mem_append.1 hc with hc | hc
    · exact (ih c hc).append _
    · rw [List.mem_singleton.1 hc]
      exact .slice List.getElem?_concat_length (getElem?_append_of_some hinput)
  | concat _ hcomputed hslice hinputs ih =>
    intro c hc
    rcases List.mem_append.1 hc with hc | hc
    · exact (ih c hc).append _
    · rw [List.mem_singleton.1 hc]
      exact .concat List.getElem?_concat_length hcomputed hslice
        (hinputs.imp fun part input h => ⟨getElem?_append_of_some h.1, h.2⟩)

/-- An input of a composition has the digits of its width, known or not. -/
theorem AllSized.inputDigits (h : AllSized signals slots) {part : Signal} {input : Nat × Nat}
    (hslot : signals[input.1]? = some part) (hwidth : part.width = some input.2) :
    (inputDigits slots input).length = input.2 := by
  have hencoding := encoding_of_width hwidth
  unfold Query.inputDigits
  cases hcurrent : (slotAt slots input.1).current with
  | none => exact List.length_replicate
  | some v =>
    obtain ⟨digits, rfl, hlength⟩ := (h _ part hslot).current hcurrent _ hencoding
    exact hlength

/-- The digits of a composition are as many as its parts have together. -/
theorem AllSized.concatDigits (h : AllSized signals slots) {parts : List Signal}
    {inputs : List (Nat × Nat)} (hparts : ∀ part ∈ parts, ∃ width, part.encoding = .bits width)
    (hinputs : List.Forall₂ (fun part input =>
      signals[input.1]? = some part ∧ input.2 = part.width.getD 0) parts inputs) :
    (inputs.flatMap (Query.inputDigits slots)).length = totalWidth parts := by
  induction hinputs with
  | nil => rfl
  | @cons part input parts inputs hin _ ih =>
    obtain ⟨width, hwidth⟩ := hparts part (.head _)
    have hsome : part.width = some width := by rw [Signal.width, hwidth]
    have hinput : input.2 = width := by rw [hin.2, hsome]; rfl
    rw [List.flatMap_cons, List.length_append, ih fun part hmem => hparts part (.tail _ hmem),
      h.inputDigits hin.1 (hinput ▸ hsome), hinput]
    show width + totalWidth parts = ((part.width.getD 0) :: parts.map fun part =>
      part.width.getD 0).sum
    rw [hsome, List.sum_cons]
    rfl

/-- The result of a computation is as wide as the handle of its slot. -/
theorem Fills.result (hmeasured : w.Measured) (hvalid : ∀ signal ∈ signals, w.Valid signal)
    (h : AllSized signals slots) {c : Computation} (hfills : Fills w signals c) {i : Nat}
    {v : Value} (hresult : c.result slots = some (i, v)) :
    ∀ signal, signals[i]? = some signal → SizedTo signal.encoding v := by
  cases hfills with
  | @slice slot input signal hslot hinput =>
    obtain ⟨value, hpending, heq⟩ := Option.map_eq_some_iff.1 hresult
    cases heq
    intro signal' hsignal'
    cases hslot.symm.trans hsignal'
    have hv := hvalid signal (List.mem_of_getElem? hslot)
    exact (hv.projects hmeasured ((h _ _ hinput).pending value hpending)).2.toOwned
  | @concat slot width inputs signal hslot hc hslice hinputs =>
    simp only [Computation.result] at hresult
    split at hresult
    swap
    · cases hresult
    split at hresult
    swap
    · cases hresult
    cases hresult
    intro signal' hsignal' total htotal
    cases hslot.symm.trans hsignal'
    have hv := hvalid signal (List.mem_of_getElem? hslot)
    have hparts : ∀ part ∈ w.compositionParts signal, ∃ width, part.encoding = .bits width :=
      fun part hpart => (hv.part hc hpart).2.1
    refine ⟨_, rfl, (h.concatDigits hparts hinputs).trans ?_⟩
    -- The width of the handle is that of the definition, which is the sum of those of the parts.
    have hwhole : signal = signal.base := by simpa [Signal.isSlice] using hslice
    have hsame : signal.encoding = signal.baseEncoding := congrArg Signal.encoding hwhole
    have hencoding := (validateEncoding_ok hv).2.2.1
    rw [encodingOf, if_pos hc, ← hsame, htotal] at hencoding
    obtain ⟨d, hd, hwidth⟩ := Option.map_eq_some_iff.1 hencoding
    cases hwidth
    rw [(hmeasured.definitions _ d hd).1, Waveform.compositionParts, hd]
    rfl

/-- A computation keeps the slots sized. -/
theorem complete_sized (hmeasured : w.Measured) (hvalid : ∀ signal ∈ signals, w.Valid signal)
    {c : Computation} (hfills : Fills w signals c) {work : List Slot × List Nat}
    (h : AllSized signals work.1) : AllSized signals (c.complete work).1 := by
  unfold Computation.complete
  cases hresult : c.result work.1 with
  | none => exact h
  | some found =>
    obtain ⟨i, v⟩ := found
    exact h.modify fun signal slot hsignal hslot =>
      hslot.write (hfills.result hmeasured hvalid h hresult signal hsignal)

/-- Completing the computations keeps the slots sized. The induction is on the computations, each of
which fills its slot from sized operands. -/
theorem computations_sized (hmeasured : w.Measured) (hvalid : ∀ signal ∈ signals, w.Valid signal)
    {computations : List Computation} (hfills : ∀ c ∈ computations, Fills w signals c)
    {work : List Slot × List Nat} (h : AllSized signals work.1) :
    AllSized signals (computations.foldl Computation.complete work).1 := by
  induction computations generalizing work with
  | nil => exact h
  | cons c computations ih =>
    exact ih (fun c hc => hfills c (.tail _ hc))
      (complete_sized hmeasured hvalid (hfills c (.head _)) h)

end

/-! ## Traversals -/

/-- A delivery has a value as wide as its history. -/
def Delivery.SizedIn (encodings : List Encoding) : Delivery → Prop
  | .record base (.ok value) _ _ => SizedAt encodings base value
  | _ => True

/-- The variables of a traversal hold sized slots, and its visitor's state has a property. -/
structure Tally.SizedFor {σ : Type} (plan : Plan) (P : σ → Prop) (st : Tally σ) : Prop where
  slots : AllSized plan.retained st.work.1
  checkpoint : ∀ replay, st.checkpoint = some replay → AllSized plan.retained replay.slots
  visited : P st.visited

/-- The snapshots of a selection hold sized slots. -/
structure Selection.SizedSlots (sel : Selection) : Prop where
  replay : ∀ replay, sel.replay = some replay → AllSized sel.plan.retained replay.slots
  checkpoint : ∀ replay, sel.checkpoint = some replay → AllSized sel.plan.retained replay.slots

/-- An observation has a value as wide as its history. -/
def Sample.SizedIn (encodings : List Encoding) : Sample → Prop
  | .value signal v _ => SizedAt encodings signal.index v
  | .missing _ | .event _ _ => True

/-- The observation of a whole source history is one of its records, and is as wide. -/
theorem Waveform.sampleAt_sized {w : Waveform} {recs : List Record} {signal : Signal}
    (hc : signal.computed = false) (hslice : signal.isSlice = false)
    (h : ∀ r ∈ recs, SizedAt w.encodings r.base r.value) (t : Nat) :
    (w.sampleAt recs t signal).SizedIn w.encodings := by
  unfold Waveform.sampleAt
  split
  · trivial
  split
  · next v changedAt hcommitted =>
    obtain ⟨v', hv, heq⟩ := Option.map_eq_some_iff.1 hcommitted
    cases heq
    rw [Waveform.valueAt, Waveform.value_source hc] at hv
    obtain ⟨v', hv', rfl⟩ := Option.map_eq_some_iff.1 hv
    obtain ⟨τ, hmem⟩ := History.valueAt_mem hv'
    obtain ⟨r, hr, hbase, -, heq⟩ := mem_history hmem
    cases heq
    rw [Waveform.project_whole hslice]
    exact fun encoding hencoding => (h r hr encoding (hbase ▸ hencoding)).toOwned
  · trivial

/-- What a source returns when a callback went through its deliveries: the break of the callback, or
how the read ended. -/
def answered {σ B : Type} (ending : Except Error (Option Position)) :
    σ × ControlFlow B → σ × Except Error (ControlFlow B) × Option Position
  | (c, .break b) => (c, .ok (.break b), none)
  | (c, .continue) =>
    match ending with
    | .error e => (c, .error e, none)
    | .ok position => (c, .ok .continue, position)

/-- What a callback makes of its deliveries is returned, however a read ends. -/
theorem answered_fst {σ B : Type} (ending : Except Error (Option Position))
    (visited : σ × ControlFlow B) : (answered ending visited).1 = visited.1 := by
  rcases visited with ⟨c, _ | b⟩
  · cases ending <;> rfl
  · rfl

/-- A reader hands over values as wide as their histories, whatever it is asked to read and whoever
asks, and observes such values of whole histories of a waveform. -/
structure Source.HandsSized (src : Source) (encodings : List Encoding) : Prop where
  read : ∀ {σ B : Type} bases stop origin (callback : σ → Delivery → σ × ControlFlow B) (c : σ),
    ∃ ds ending, src.read bases stop origin callback c = answered ending (visit callback c ds) ∧
      ∀ d ∈ ds, Delivery.SizedIn encodings d
  parallelPrefix : ∀ (w : Waveform) bases stop samples position, w.encodings = encodings →
    (∀ base ∈ bases, w.Valid base ∧ base.computed = false ∧ base.isSlice = false) →
    src.parallelPrefix bases stop = some (samples, position) →
      ∀ sample ∈ samples, Sample.SizedIn encodings sample

/-- What a reader answers to any callback it answers to one. -/
theorem Source.Answers.answered {src : Source} {bases : List Signal} {stop : Nat}
    {origin : Option Position} {ds : List Delivery} {ending : Except Error (Option Position)}
    (h : src.Answers bases stop origin ds ending) {σ B : Type}
    (callback : σ → Delivery → σ × ControlFlow B) (c : σ) :
    src.read bases stop origin callback c = Query.answered ending (visit callback c ds) := by
  rw [h callback c]
  rcases visit callback c ds with ⟨c', _ | b⟩
  · cases ending <;> rfl
  · rfl

section
variable {σ B : Type} {w : Waveform} {plan : Plan} {visitor : TickVisitor σ B} {P : σ → Prop}

/-- The visitor is shown sized slots, and the slots stay sized. -/
theorem completeTick_sized (hmeasured : w.Measured) (hfits : plan.Fits w)
    (hvisitor : ∀ c t slots, P c → AllSized plan.retained slots → P (visitor c t slots).1)
    (visitFrom : Option Nat) (t : Nat) {work : List Slot × List Nat} {c : σ}
    (h : AllSized plan.retained work.1) (hc : P c) :
    AllSized plan.retained (completeTick plan.computations visitFrom visitor c t work).1.1 ∧
      P (completeTick plan.computations visitFrom visitor c t work).2.1 := by
  have hfull := computations_sized hmeasured hfits.valid hfits.computes.fills h
  have hview := hfull.modifyAll (fun signal slot => Slot.SizedFor.compare)
    (plan.computations.foldl Computation.complete work).2
  have hnext := hview.modifyAll (fun signal slot => Slot.SizedFor.commit t)
    (plan.computations.foldl Computation.complete work).2
  unfold completeTick
  dsimp only
  generalize modifyAll Slot.compare (plan.computations.foldl Computation.complete work).1
    (plan.computations.foldl Computation.complete work).2 = slots at hview hnext
  have hshown : P (shown visitFrom visitor c t slots).1 := by
    unfold shown
    split
    · exact hvisitor c t slots hc hview
    · exact hc
  generalize shown visitFrom visitor c t slots = shown at hshown
  rcases shown with ⟨c', e | _ | b⟩
  · exact ⟨hview, hshown⟩
  · exact ⟨hnext, hshown⟩
  · exact ⟨hview, hshown⟩

variable {tr : Traversal σ B} {st : Tally σ}

/-- A value of a history goes to the slots of its handles as wide as they are. -/
theorem writeSlots_sized (hmeasured : w.Measured)
    (hvalid : ∀ signal ∈ tr.plan.retained, w.Valid signal)
    {v : Value} {indices : List Nat}
    (hv : ∀ i ∈ indices, ∀ signal, tr.plan.retained[i]? = some signal →
      SizedTo signal.baseEncoding v)
    {work work' : List Slot × List Nat} (h : AllSized tr.plan.retained work.1)
    (hrun : writeSlots tr v indices work = .ok work') : AllSized tr.plan.retained work'.1 := by
  induction indices generalizing work with
  | nil => cases hrun; exact h
  | cons i indices ih =>
    unfold writeSlots at hrun
    split at hrun
    · cases hrun
    next work₁ hstep =>
    refine ih (fun j hj => hv j (.tail _ hj)) ?_ hrun
    unfold writeSlot at hstep
    dsimp only at hstep
    split at hstep
    · split at hstep
      · cases hstep
        exact h.modify fun signal slot _ hslot => ⟨hslot.state, hslot.pending⟩
      · cases hstep
    · cases hstep
      refine h.modify fun signal slot hsignal hslot => hslot.write ?_
      rw [hsignal]
      have hv := (hvalid signal (List.mem_of_getElem? hsignal)).projects hmeasured
        (hv i (.head _) signal hsignal)
      exact hv.2.toOwned

/-- The first record of a window is a snapshot of sized slots. -/
theorem Tally.SizedFor.considerCheckpoint (h : st.SizedFor tr.plan P) (t : Nat)
    (position : Option Position) : (st.considerCheckpoint tr t position).SizedFor tr.plan P := by
  unfold Tally.considerCheckpoint
  split
  · split
    · refine ⟨h.slots, fun replay hreplay => ?_, h.visited⟩
      dsimp only at hreplay
      split at hreplay
      · cases hreplay
        exact h.slots
      · cases hreplay
    · exact h
  · exact h

variable (tr) in
/-- A completed tick keeps the variables sized. -/
theorem Tally.SizedFor.complete (hmeasured : w.Measured) (hfits : tr.plan.Fits w)
    (hvisitor : ∀ c t slots, P c → AllSized tr.plan.retained slots → P (tr.visitor c t slots).1)
    (h : st.SizedFor tr.plan P) (t : Nat) : (st.complete tr t).1.SizedFor tr.plan P := by
  obtain ⟨hslots, hvisited⟩ :=
    completeTick_sized hmeasured hfits hvisitor tr.start t h.slots h.visited
  exact ⟨hslots, h.checkpoint, hvisited⟩

variable (tr) in
/-- **One delivery.** A sized delivery keeps the slots sized, and the visitor is shown sized
slots. -/
theorem Tally.SizedFor.consume (hmeasured : w.Measured) (hfits : tr.plan.Fits w)
    (hvisitor : ∀ c t slots, P c → AllSized tr.plan.retained slots → P (tr.visitor c t slots).1)
    {d : Delivery} (hd : d.SizedIn w.encodings) (h : st.SizedFor tr.plan P) :
    (consume tr st d).1.SizedFor tr.plan P := by
  have htake : ∀ {st : Tally σ} (base : Nat) (value : Except Error Value) (t : Nat)
      (position : Option Position), Delivery.SizedIn w.encodings (.record base value t position) →
      st.SizedFor tr.plan P → (st.take tr base value t position).1.SizedFor tr.plan P := by
    intro st base value t position hd h
    unfold Tally.take
    cases value with
    | error e => exact h
    | ok v =>
      have hconsidered := h.considerCheckpoint t position
      dsimp only
      split
      · exact hconsidered
      · next work hwork =>
        refine ⟨writeSlots_sized hmeasured hfits.valid (fun i hi signal hsignal => ?_)
          hconsidered.slots hwork, hconsidered.checkpoint, hconsidered.visited⟩
        obtain ⟨signal', hsignal', hc, rfl⟩ := (hfits.entries base i).1 hi
        cases hsignal.symm.trans hsignal'
        have hvalid := hfits.valid signal (List.mem_of_getElem? hsignal)
        have hencoding := (validateEncoding_ok hvalid).2.2.1
        rw [encodingOf, if_neg (by rw [hc]; decide)] at hencoding
        exact hd _ hencoding
  cases d with
  | tick t =>
    unfold Query.consume
    dsimp only
    cases hpending : st.pendingTime with
    | none => exact h
    | some previous =>
      have hcomplete := h.complete tr hmeasured hfits hvisitor previous
      dsimp only
      generalize st.complete tr previous = completed at hcomplete
      rcases completed with ⟨st', e | _ | b⟩
      · exact hcomplete
      · exact ⟨hcomplete.slots, hcomplete.checkpoint, hcomplete.visited⟩
      · exact hcomplete
  | record base value t position =>
    unfold Query.consume
    dsimp only
    cases hpending : st.pendingTime.filter fun previous => decide (previous ≠ t) with
    | none => exact htake base value t position hd h
    | some previous =>
      have hcomplete := h.complete tr hmeasured hfits hvisitor previous
      dsimp only
      generalize st.complete tr previous = completed at hcomplete
      rcases completed with ⟨st', e | _ | b⟩
      · exact hcomplete
      · exact htake base value t position hd hcomplete
      · exact hcomplete

/-- Slots seeded with sized observations of whole histories are sized. -/
theorem seedSlots_sized (hfits : plan.Fits w)
    (hwhole : ∀ signal ∈ plan.retained, signal.isSlice = false)
    {samples : List Sample} (hsamples : ∀ sample ∈ samples, Sample.SizedIn w.encodings sample) :
    AllSized plan.retained (seedSlots plan samples) := by
  have hall : ∀ slots, AllSized plan.retained slots →
      AllSized plan.retained (samples.foldl (seedSlot plan) slots) := by
    induction samples with
    | nil => exact fun slots h => h
    | cons sample samples ih =>
      intro slots h
      refine ih (fun sample hmem => hsamples sample (.tail _ hmem)) _ ?_
      have hsized := hsamples sample (.head _)
      cases sample with
      | missing | event => exact h
      | value signal v changedAt =>
        have hentries : ∀ i ∈ plan.entries signal.index, ∀ s, plan.retained[i]? = some s →
            SizedTo s.encoding v := by
          intro i hi s hs
          obtain ⟨s', hs', hc, hindex⟩ := (hfits.entries signal.index i).1 hi
          cases hs.symm.trans hs'
          have hmem := List.mem_of_getElem? hs
          have hsame : s = s.base := by simpa [Signal.isSlice] using hwhole s hmem
          have hencoding := (validateEncoding_ok (hfits.valid s hmem)).2.2.1
          rw [encodingOf, if_neg (by rw [hc]; decide), hindex] at hencoding
          rw [show s.encoding = s.baseEncoding from congrArg Signal.encoding hsame]
          exact hsized _ hencoding
        unfold seedSlot
        dsimp only
        generalize plan.entries signal.index = positions at hentries ⊢
        induction positions generalizing slots with
        | nil => exact h
        | cons i positions ihp =>
          refine ihp _ (h.modify fun s slot hs hslot => ⟨fun state heq => ?_, hslot.pending⟩)
            fun j hj => hentries j (.tail _ hj)
          cases heq
          exact hentries i (.head _) s hs
  exact hall _ (allSized_empty _ _)

variable {sizes : Sizes} {src : Source} {sel : Selection}

/-- A seeded selection has sized snapshots. -/
theorem Selection.SizedSlots.seed (hfits : sel.plan.Fits w) (hsrc : src.HandsSized w.encodings)
    (start : Option Nat) (h : sel.SizedSlots) : (sel.seed sizes src start).SizedSlots := by
  unfold Selection.seed
  split
  swap
  · exact h
  next hplain =>
  simp only [Bool.and_eq_true, Bool.not_eq_true', List.any_eq_false, Bool.not_eq_true] at hplain
  split
  · exact h
  split
  · exact h
  next start _ samples position hanswer =>
  dsimp only
  split
  · refine ⟨h.replay, fun replay hreplay => ?_⟩
    cases hreplay
    refine seedSlots_sized hfits hplain.2
      (hsrc.parallelPrefix w _ _ _ _ rfl (fun base hbase => ?_) hanswer)
    obtain ⟨signal, hsignal, hsource, rfl⟩ := hfits.sources base hbase
    exact ⟨(hfits.valid signal hsignal).base, hsource, Waveform.base_isSlice signal⟩
  · exact h

/-- **A traversal.** A reader that hands over sized values leaves sized slots and snapshots of them,
and the visitor is shown sized slots. -/
theorem readTicksFrom_sized (hmeasured : w.Measured) (hfits : sel.plan.Fits w)
    (hsrc : src.HandsSized w.encodings) (h : sel.SizedSlots) (start : Option Nat) (stop : Nat)
    {c : σ} (hvisitor : ∀ c t slots, P c → AllSized sel.plan.retained slots →
      P (visitor c t slots).1)
    (hc : P c) :
    (sel.readTicksFrom sizes src start stop visitor c).1.SizedSlots ∧
      AllSized sel.plan.retained (sel.readTicksFrom sizes src start stop visitor c).2.1 ∧
      P (sel.readTicksFrom sizes src start stop visitor c).2.2.1 := by
  have hplan : (sel.seed sizes src start).plan = sel.plan := by
    have hcleared := congrArg Selection.plan (sel.seed_cleared sizes src start)
    exact hcleared
  have hseeded : (sel.seed sizes src start).SizedSlots := h.seed hfits hsrc start
  unfold Selection.readTicksFrom
  generalize sel.seed sizes src start = sel₁ at hplan hseeded
  rw [← hplan] at hfits hvisitor ⊢
  dsimp only
  -- The traversal starts from the slots of a snapshot, or from empty ones.
  have hrestored : AllSized sel₁.plan.retained
      (Selection.restored sel₁.plan (sel₁.resumed start stop)) := by
    unfold Selection.restored Selection.resumed
    cases hresumed : (sel₁.replay.filter (Replay.eligible start stop)).or
      (sel₁.checkpoint.filter (Replay.eligible start stop)) with
    | none => exact allSized_empty _ _
    | some replay =>
      rcases Option.or_eq_some_iff.1 hresumed with hreplay | ⟨-, hcheckpoint⟩
      · exact hseeded.replay replay ((Option.filter_eq_some_iff.1 hreplay).1)
      · exact hseeded.checkpoint replay ((Option.filter_eq_some_iff.1 hcheckpoint).1)
  obtain ⟨ds, ending, hread, hds⟩ := hsrc.read sel₁.plan.bases stop
    ((sel₁.resumed start stop).map Replay.position)
    (consume ⟨sel₁.plan, sizes, src.backend, start, visitor⟩) (sel₁.tally start stop c)
  rw [hread]
  have hrun : (visit (consume ⟨sel₁.plan, sizes, src.backend, start, visitor⟩)
      (sel₁.tally start stop c) ds).1.SizedFor sel₁.plan P :=
    visit_invariant (P := Tally.SizedFor sel₁.plan P)
      (fun st d hd hst => hst.consume ⟨sel₁.plan, sizes, src.backend, start, visitor⟩ hmeasured
        hfits hvisitor (hds d hd))
      ⟨hrestored, hseeded.checkpoint, hc⟩
  generalize visit (consume ⟨sel₁.plan, sizes, src.backend, start, visitor⟩)
    (sel₁.tally start stop c) ds = visited at hrun
  rcases visited with ⟨st, _ | outcome⟩
  swap
  · exact ⟨⟨nofun, nofun⟩, hrun.slots, hrun.visited⟩
  have hdone := hrun.slots
  cases ending with
  | error e => exact ⟨⟨nofun, nofun⟩, hdone, hrun.visited⟩
  | ok position =>
    have hnext : ∀ {slots : List Slot}, AllSized sel₁.plan.retained slots →
        ∀ (make : Position → Replay),
        (∀ position, (make position).slots = slots) → ∀ replay, position.map make = some replay →
          AllSized sel₁.plan.retained replay.slots := by
      intro slots hslots make hmake replay hreplay
      obtain ⟨p, -, rfl⟩ := Option.map_eq_some_iff.1 hreplay
      rw [hmake]
      exact hslots
    dsimp only [answered]
    cases hpending : st.pendingTime with
    | none => exact ⟨⟨hnext hdone _ fun _ => rfl, hrun.checkpoint⟩, hdone, hrun.visited⟩
    | some t =>
      have hcomplete : (st.complete ⟨sel₁.plan, sizes, src.backend, start, visitor⟩ t).1.SizedFor
          sel₁.plan P :=
        hrun.complete ⟨sel₁.plan, sizes, src.backend, start, visitor⟩ hmeasured hfits hvisitor t
      dsimp only
      generalize st.complete ⟨sel₁.plan, sizes, src.backend, start, visitor⟩ t =
        completed at hcomplete
      rcases completed with ⟨st', e | _ | b⟩
      · exact ⟨⟨nofun, nofun⟩, hcomplete.slots, hcomplete.visited⟩
      · exact ⟨⟨hnext hdone _ fun _ => rfl, hcomplete.checkpoint⟩, hcomplete.slots,
          hcomplete.visited⟩
      · exact ⟨⟨nofun, nofun⟩, hcomplete.slots, hcomplete.visited⟩

/-- Operations on a selection keep its snapshots sized, whichever of some readers each of them
uses. -/
theorem Selection.ReachedIn.sized {readers : Source → Prop} {signals : List Signal}
    (hmeasured : w.Measured) (hsrc : ∀ src, readers src → src.HandsSized w.encodings)
    (h : sel.ReachedIn sizes readers w signals) : sel.SizedSlots ∧ sel.plan.Fits w := by
  have hfits : ∀ {sel : Selection}, sel.ReachedIn sizes readers w signals → sel.plan.Fits w := by
    intro sel h
    obtain ⟨hsound, hwaveform, -⟩ := Selection.new_sound h.fresh [] fun _ _ => False
    have hwaveform : sel.waveform = w := hwaveform
    exact hwaveform ▸ hsound.plans.toFits
  refine ⟨?_, hfits h⟩
  induction h with
  | new hnew =>
    unfold Selection.new at hnew
    split at hnew
    · cases hnew
    · cases hnew
      exact ⟨nofun, nofun⟩
  | @read sel₀ src σ B start stop visitor c hreader h ih =>
    have htrue : ∀ c t slots, True → AllSized sel₀.plan.retained slots →
        (fun _ => True) (visitor c t slots).1 := fun _ _ _ _ _ => trivial
    exact (readTicksFrom_sized hmeasured (hfits h) (hsrc src hreader) ih start stop htrue
      (c := c) trivial).1
  | cleared _ _ => exact ⟨nofun, nofun⟩

end

/-- The reader of records in memory hands over sized values when its records are. -/
theorem memory_handsSized {records : List Record} {failAfter : Option Nat} {failure : Error}
    {encodings : List Encoding} (hrecords : ∀ r ∈ records, SizedAt encodings r.base r.value) :
    (Source.memory records failAfter failure).HandsSized encodings where
  read := fun bases stop origin callback c => by
    by_cases hempty : bases.isEmpty = true
    · rw [List.isEmpty_iff.1 hempty]
      exact ⟨[], .ok none, Source.Answers.answered (memory_idle stop origin) callback c,
        fun d hd => by cases hd⟩
    · refine ⟨_, _, Source.Answers.answered (fun callback c => memory_answers hempty callback c)
        callback c, fun d hd => ?_⟩
      have hall : ∀ (records : List Record) (failAfter : Option Nat),
          (∀ r ∈ records, SizedAt encodings r.base r.value) →
          ∀ d ∈ (memoryRead bases stop failure failAfter records).1, d.SizedIn encodings := by
        intro records
        induction records with
        | nil => exact fun _ _ d hd => by cases hd
        | cons r records ih =>
          intro failAfter hrecords d hd
          have hrest := ih (failAfter.map (· - 1)) fun r hr => hrecords r (.tail _ hr)
          unfold memoryRead at hd
          split at hd
          · cases hd
          split at hd
          · cases hd
          dsimp only at hd
          split at hd
          · rcases List.mem_cons.1 hd with rfl | hd
            · exact hrecords r (.head _)
            · exact hrest d hd
          · exact hrest d hd
      exact hall records failAfter hrecords d hd
  parallelPrefix := fun _ _ _ _ _ _ _ h => by cases h

/-- **Widths of a selection.** Over a waveform with any registered compositions and a reader that
hands over sized values: for each valid handle, projecting a value of its base stays inside the
digits and inside `u32`, with as many digits as the handle has; and whatever operations a selection
has gone through, its next traversal shows its visitor slots that are all sized, and leaves sized
slots. -/
theorem registered_stays_sized {source : Nat} {encodings : List Encoding}
    (hu32 : ∀ width, .bits width ∈ encodings → width < 2 ^ 32) (calls : List (List Signal))
    {src : Source} (hsrc : src.HandsSized encodings) {sizes : Sizes} {signals : List Signal}
    {sel : Selection} :
    let r := Registry.run_extends (Registry.sound_new source encodings) calls
    let w := Registry.waveform _ r.1
    sel.Reached sizes src w signals →
    (∀ signal v, w.Valid signal → SizedTo signal.baseEncoding v →
      projectChecked v signal = some (project v signal) ∧
      SizedTo signal.encoding (project v signal)) ∧
    ∀ {σ B : Type} (start : Option Nat) (stop : Nat) (visitor : TickVisitor σ B) (P : σ → Prop)
      (c : σ),
      (∀ c t slots, P c → AllSized sel.plan.retained slots → P (visitor c t slots).1) → P c →
      AllSized sel.plan.retained (sel.readTicksFrom sizes src start stop visitor c).2.1 ∧
        P (sel.readTicksFrom sizes src start stop visitor c).2.2.1 := by
  intro r w hreached
  have hencodings : w.encodings = encodings := r.2.encodings
  have hmeasured : w.Measured := r.1.measured fun width hmem => hu32 width (hencodings ▸ hmem)
  have hsrc' : src.HandsSized w.encodings := hencodings ▸ hsrc
  have hreaders : ∀ src', src' = src → src'.HandsSized w.encodings := by
    rintro src' rfl
    exact hsrc'
  obtain ⟨hsized, hfits⟩ := hreached.reachedIn.sized hmeasured hreaders
  refine ⟨fun signal v hvalid hv => hvalid.projects hmeasured hv,
    fun start stop visitor P c hvisitor hc => ?_⟩
  exact (readTicksFrom_sized hmeasured hfits hsrc' hsized start stop hvisitor hc).2

/-- The bus is composed with its low bit, and the upper two bits of that are selected. -/
theorem registered_stays_sized_bus :
    let calls := [[busLow, bus]]
    let r := Registry.run_extends (Registry.sound_new 7 [.bits 2, .event]) calls
    let w := Registry.waveform _ r.1
    let upper : Signal := ⟨7, 0, true, .bits 3, .bits 2, 1⟩
    ∃ sel, Selection.new w [upper, bus] = .ok sel ∧
      ∀ slots ∈ (sel.readTicksFrom ⟨0, 0⟩ busSource none 9
        (fun seen _ slots => (slots :: seen, .ok (.continue : ControlFlow Unit))) []).2.2.1,
        AllSized sel.plan.retained slots := by
  intro calls r w upper
  have hsrc : busSource.HandsSized [.bits 2, .event] := memory_handsSized fun r hr => by
    simp only [busRecords, List.mem_cons, List.not_mem_nil, or_false] at hr
    rcases hr with rfl | rfl | rfl | rfl | rfl | rfl <;> intro encoding hencoding width hwidth <;>
      subst hwidth <;> cases hencoding <;> exact ⟨_, rfl, rfl⟩
  have hok : (Selection.new w [upper, bus]).toBool = true := by decide +kernel
  cases hnew : Selection.new w [upper, bus] with
  | error e => rw [hnew] at hok; cases hok
  | ok sel =>
    refine ⟨sel, rfl, ?_⟩
    exact ((registered_stays_sized (by simp) calls hsrc (.new hnew)).2 none 9 _
      (fun seen => ∀ slots ∈ seen, AllSized sel.plan.retained slots) []
      (fun seen t slots hseen hslots slots' hmem => by
        rcases List.mem_cons.1 hmem with rfl | hmem
        · exact hslots
        · exact hseen slots' hmem) (fun slots hmem => by cases hmem)).2

end Ondas.Query
