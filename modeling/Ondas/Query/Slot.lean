import Ondas.Library.Machine
import Ondas.Query.Plan

/-!
# Slots and completed ticks

A slot keeps the committed state of one handle, the value its current tick has written so far, and
the events of that tick. `completeTick` fills the computed slots, finds out which slots changed,
shows the slots to the visitor and commits them.

`Waveform.openSlot` is what a slot must hold while a tick is being read and `Waveform.viewSlot` what
the visitor must see, both as functions of the records read. `completeTick_ready` says that
completing a tick takes the first to the second, and then to the open slots of the next tick.
-/

namespace Ondas.Query

open Library

/-! ## The slots of a selection -/

/-- An observation of one selection entry at one tick. -/
inductive Sample where
  | missing (signal : Signal)
  | value (signal : Signal) (value : Value) (changedAt : Option Nat)
  | event (signal : Signal) (occurrences : Nat)
  deriving DecidableEq, Repr

/-- A known value, with the tick that established it. -/
structure State where
  value : Value
  changedAt : Option Nat
  deriving DecidableEq, Repr

/-- A slot: its committed state, and what the current tick has written and counted. -/
structure Slot where
  state : Option State
  pending : Option Value
  changed : Bool
  events : Nat
  deriving DecidableEq, Repr

namespace Slot

/-- `Slot::default`. -/
def empty : Slot := ⟨none, none, false, 0⟩

/-- `Slot::sample`: with a time, the completed pending tick; without one, the committed state at a
quiet tick, where no events count. -/
def sample (slot : Slot) (signal : Signal) (time : Option Nat) : Sample :=
  if signal.encoding = .event then
    .event signal (if time.isSome then slot.events else 0)
  else
    match (time.bind fun _ => slot.pending).or (slot.state.map State.value) with
    | some value =>
      .value signal value
        (slot.state.bind fun state =>
          if slot.changed then time.or state.changedAt else state.changedAt)
    | none => .missing signal

/-- The value a slot has now. -/
def current (slot : Slot) : Option Value := slot.pending.or (slot.state.map State.value)

/-- The current tick has written the slot or counted events. -/
def busy (slot : Slot) : Bool := slot.pending.isSome || decide (0 < slot.events)

/-- Whether the pending value differs from the committed one. -/
def compare (slot : Slot) : Slot :=
  { slot with
    changed := slot.pending.any fun value =>
      !(slot.state.any fun state => state.value.sameValue value) }

/-- Commit the pending value of a changed slot and forget the tick. -/
def commit (time : Nat) (slot : Slot) : Slot :=
  { state := match slot.pending with
      | some value =>
        if slot.changed then some ⟨value, slot.state.map fun _ => time⟩ else slot.state
      | none => slot.state
    pending := none
    changed := false
    events := 0 }

@[simp] theorem compare_compare (slot : Slot) : slot.compare.compare = slot.compare := rfl

@[simp] theorem commit_commit (time : Nat) (slot : Slot) :
    (slot.commit time).commit time = slot.commit time := rfl

end Slot

/-- The slot with a number. -/
def slotAt (slots : List Slot) (i : Nat) : Slot := (slots[i]?).getD .empty

/-! ## Completing a tick -/

/-- The digits of one input of a composition, or `x` when it is missing. -/
def inputDigits (slots : List Slot) (input : Nat × Nat) : List UInt8 :=
  ((slotAt slots input.1).current.bind Value.digits?).getD (List.replicate input.2 120)

/-- One input of a composition is a known bit vector. -/
def inputObserved (slots : List Slot) (input : Nat × Nat) : Bool :=
  ((slotAt slots input.1).current.bind Value.digits?).isSome

/-- The slot a computation fills and its value, when the tick wrote one of its inputs. -/
def Computation.result (slots : List Slot) : Computation → Option (Nat × Value)
  | .concat slot inputs _ =>
    if inputs.any fun input => (slotAt slots input.1).pending.isSome then
      if inputs.any (inputObserved slots) then
        some (slot, .bits (inputs.flatMap (inputDigits slots)))
      else none
    else none
  | .slice slot input signal =>
    (slotAt slots input).pending.map fun value => (slot, (project value signal).toOwned)

/-- `Computation::complete`. -/
def Computation.complete (work : List Slot × List Nat) (c : Computation) : List Slot × List Nat :=
  match c.result work.1 with
  | none => work
  | some (slot, value) =>
    (work.1.modify slot fun s => { s with pending := some value },
      if (slotAt work.1 slot).pending.isNone then work.2 ++ [slot] else work.2)

/-- What the visitor of completed ticks answers, with its own state. -/
abbrev TickVisitor (σ B : Type*) := σ → Nat → List Slot → σ × Except Error (ControlFlow B)

/-- A tick is shown from the start of the window on. -/
def shown {σ B : Type*} (visitFrom : Option Nat) (visitor : TickVisitor σ B) (c : σ) (time : Nat)
    (slots : List Slot) : σ × Except Error (ControlFlow B) :=
  if visitFrom.all (· ≤ time) then visitor c time slots else (c, .ok .continue)

/-- `complete_tick`: the tick is shown before it is committed. -/
def completeTick {σ B : Type*} (computations : List Computation) (visitFrom : Option Nat)
    (visitor : TickVisitor σ B) (c : σ) (time : Nat) (work : List Slot × List Nat) :
    (List Slot × List Nat) × σ × Except Error (ControlFlow B) :=
  let work := computations.foldl Computation.complete work
  let slots := modifyAll Slot.compare work.1 work.2
  match shown visitFrom visitor c time slots with
  | (c, .ok .continue) => ((modifyAll (Slot.commit time) slots work.2, []), c, .ok .continue)
  | (c, outcome) => ((slots, work.2), c, outcome)

/-! ## What the slots must hold -/

/-- A reference state as a slot keeps it. -/
def stateOf (entry : Option (Value × Option Nat)) : Option State :=
  entry.map fun e => ⟨e.1, e.2⟩

namespace Waveform
variable (w : Waveform) (recs : List Record) (t : Nat) (signal : Signal)

/-- The value a tick writes to a handle. -/
def pendingAt : Option Value :=
  if w.writtenAt recs signal t then w.valueAt recs signal t else none

/-- A slot while its tick is read: computed slots wait for the end of the tick. -/
def openSlot : Slot :=
  { state := stateOf (w.enteredAt recs signal t)
    pending := if signal.computed then none else w.pendingAt recs t signal
    changed := false
    events := countAt recs signal t }

/-- A slot at the end of its tick, before the changes are known. -/
def fullSlot : Slot :=
  { state := stateOf (w.enteredAt recs signal t)
    pending := w.pendingAt recs t signal
    changed := false
    events := countAt recs signal t }

/-- A slot as the visitor of its tick sees it. -/
def viewSlot : Slot := (w.fullSlot recs t signal).compare

end Waveform

/-- The slots of a plan while a tick is read, with the busy slots on the work list. -/
structure Ready (w : Waveform) (plan : Plan) (recs : List Record) (t : Nat)
    (work : List Slot × List Nat) : Prop where
  slots : work.1 = plan.retained.map (w.openSlot recs t)
  active : ∀ i signal, plan.retained[i]? = some signal → (w.openSlot recs t signal).busy = true →
    i ∈ work.2

section
variable {w : Waveform} {recs : List Record} {t : Nat} {signal : Signal}

variable (w recs t signal) in
/-- The committed value of a slot is the value that enters its tick. -/
theorem stateOf_entered : (stateOf (w.enteredAt recs signal t)).map State.value =
    w.enteringAt recs signal t := by
  unfold stateOf Waveform.enteredAt entered
  cases w.enteringAt recs signal t <;> rfl

/-- A tick writes a handle a value or nothing. -/
theorem Waveform.pendingAt_isSome (htyped : Typed w recs) (hvalid : w.Valid signal) :
    (w.pendingAt recs t signal).isSome = w.writtenAt recs signal t := by
  unfold pendingAt
  cases hwritten : w.writtenAt recs signal t with
  | false => rfl
  | true =>
    obtain ⟨v, hv⟩ := valueAt_written htyped hvalid hwritten
    rw [if_pos rfl, hv]
    rfl

/-- At the end of its tick a slot has the value the tick leaves. -/
theorem Waveform.fullSlot_current (htyped : Typed w recs) (hvalid : w.Valid signal) :
    (w.fullSlot recs t signal).current = w.valueAt recs signal t := by
  show (w.pendingAt recs t signal).or ((stateOf (w.enteredAt recs signal t)).map State.value) = _
  rw [stateOf_entered]
  unfold pendingAt
  cases hwritten : w.writtenAt recs signal t with
  | false => rw [if_neg (by decide), Option.none_or, valueAt_quiet hvalid hwritten]
  | true =>
    obtain ⟨v, hv⟩ := valueAt_written htyped hvalid hwritten
    rw [if_pos rfl, hv]
    rfl

/-- A slice of a composition is written with the whole. -/
theorem Waveform.pendingAt_slice (hvalid : w.Valid signal) (hc : signal.computed = true) :
    w.pendingAt recs t signal = (w.pendingAt recs t signal.base).map (project · signal) := by
  have hlt := hvalid.index_lt hc
  have htouched : w.writtenAt recs signal.base t = w.writtenAt recs signal t := by
    unfold writtenAt
    rw [touched_computed (show signal.base.computed = true from hc) hlt, touched_computed hc hlt]
    rfl
  have hvalue : w.valueAt recs signal t = (w.valueAt recs signal.base t).map (project · signal) :=
    value_slice hc hlt
  unfold pendingAt
  rw [htouched, hvalue]
  cases w.writtenAt recs signal t <;> rfl

/-- A known value of the reference is owned. -/
theorem Waveform.valueAt_owned (htyped : Typed w recs) (hvalid : w.Valid signal) {v : Value}
    (hv : w.valueAt recs signal t = some v) : v.toOwned = v :=
  (value_owned (htyped.valueAt t) hvalid hv).1

theorem Waveform.enteringAt_owned (htyped : Typed w recs) (hvalid : w.Valid signal) {v : Value}
    (hv : w.enteringAt recs signal t = some v) : v.toOwned = v :=
  (value_owned (htyped.enteringAt t) hvalid hv).1

/-- A value that is pending was written at the tick. -/
theorem Waveform.pendingAt_eq {v : Value} (h : w.pendingAt recs t signal = some v) :
    w.writtenAt recs signal t = true ∧ w.valueAt recs signal t = some v := by
  unfold pendingAt at h
  split at h
  · next hwritten => exact ⟨hwritten, h⟩
  · cases h

end

/-! ## The computed slots -/

section
variable {w : Waveform} {recs : List Record} {t : Nat}

/-- A slot of a prefix of the plan. -/
theorem slotAt_map {slots : List Signal} {rest : List Slot} {f : Signal → Slot} {i : Nat}
    {signal : Signal} (h : slots[i]? = some signal) :
    slotAt (slots.map f ++ rest) i = f signal := by
  have hmap : (slots.map f)[i]? = some (f signal) := by rw [List.getElem?_map, h]; rfl
  rw [slotAt, getElem?_append_of_some hmap, Option.getD_some]

/-- A slot of a plan. -/
theorem slotAt_mapped {slots : List Signal} {f : Signal → Slot} {i : Nat} {signal : Signal}
    (h : slots[i]? = some signal) : slotAt (slots.map f) i = f signal := by
  rw [← List.append_nil (slots.map f), slotAt_map h]

/-- A computation with the right result fills the next slot. -/
theorem complete_fills {slots : List Signal} {rest : List Slot} {active : List Nat}
    {signal : Signal} {c : Computation} (hc : signal.computed = true)
    (hresult : c.result (slots.map (w.fullSlot recs t) ++ w.openSlot recs t signal :: rest) =
      (w.pendingAt recs t signal).map fun v => (slots.length, v)) :
    ∃ active', Computation.complete
        (slots.map (w.fullSlot recs t) ++ w.openSlot recs t signal :: rest, active) c =
        ((slots ++ [signal]).map (w.fullSlot recs t) ++ rest, active') ∧
      (∀ i ∈ active, i ∈ active') ∧
      ((w.pendingAt recs t signal).isSome = true → slots.length ∈ active') := by
  have hlen : (slots.map (w.fullSlot recs t)).length = slots.length := List.length_map ..
  have hopen : slotAt (slots.map (w.fullSlot recs t) ++ w.openSlot recs t signal :: rest)
      slots.length = w.openSlot recs t signal := by
    rw [slotAt, List.getElem?_append_right (by rw [hlen]), hlen, Nat.sub_self]
    rfl
  unfold Computation.complete
  rw [hresult]
  cases hpending : w.pendingAt recs t signal with
  | none =>
    have hfull : w.openSlot recs t signal = w.fullSlot recs t signal := by
      simp [Waveform.openSlot, Waveform.fullSlot, hc, hpending]
    refine ⟨active, ?_, fun i hi => hi, nofun⟩
    simp [hfull]
  | some v =>
    refine ⟨active ++ [slots.length], ?_, fun i hi => List.mem_append_left _ hi, fun _ => by simp⟩
    dsimp only [Option.map_some]
    have hnone : (w.openSlot recs t signal).pending = none := by simp [Waveform.openSlot, hc]
    rw [hopen, hnone, Option.isNone_none, if_pos rfl, ← hlen, modify_append_length]
    simp [Waveform.openSlot, Waveform.fullSlot, hpending]

/-- The result of a slice: what the tick wrote to the whole, projected. -/
theorem slice_result {slots : List Signal} {rest : List Slot} {signal : Signal} {input slot : Nat}
    (htyped : Typed w recs) (hvalid : w.Valid signal) (hc : signal.computed = true)
    (hinput : slots[input]? = some signal.base) :
    (Computation.slice slot input signal).result (slots.map (w.fullSlot recs t) ++ rest) =
      (w.pendingAt recs t signal).map fun v => (slot, v) := by
  show ((slotAt _ input).pending.map fun v => (slot, (project v signal).toOwned)) = _
  rw [slotAt_map hinput, Waveform.pendingAt_slice hvalid hc, Option.map_map]
  show (w.pendingAt recs t signal.base).map _ = _
  cases hv : w.pendingAt recs t signal.base with
  | none => rfl
  | some v =>
    have howned := Waveform.valueAt_owned htyped hvalid.base (Waveform.pendingAt_eq hv).2
    simp only [Option.map_some, Function.comp, toOwned_project, howned]

/-- A list of inputs and the parts in their slots have a property alike. -/
theorem any_forall₂ {α β : Type*} {R : α → β → Prop} {f : α → Bool} {g : β → Bool} {xs : List α}
    {ys : List β} (hall : List.Forall₂ R xs ys) (h : ∀ x ∈ xs, ∀ y, R x y → g y = f x) :
    ys.any g = xs.any f := by
  induction hall with
  | nil => rfl
  | @cons x y xs ys hxy _ ih =>
    rw [List.any_cons, List.any_cons, h x (by simp) y hxy,
      ih fun x hx => h x (List.mem_cons_of_mem _ hx)]

/-- A list of inputs and the parts in their slots have the same digits. -/
theorem flatMap_forall₂ {α β γ : Type*} {R : α → β → Prop} {f : α → List γ} {g : β → List γ}
    {xs : List α} {ys : List β} (hall : List.Forall₂ R xs ys)
    (h : ∀ x ∈ xs, ∀ y, R x y → g y = f x) : ys.flatMap g = xs.flatMap f := by
  induction hall with
  | nil => rfl
  | @cons x y xs ys hxy _ ih =>
    rw [List.flatMap_cons, List.flatMap_cons, h x (by simp) y hxy,
      ih fun x hx => h x (List.mem_cons_of_mem _ hx)]

/-- The result of a composition: its assembled parts, when the tick wrote one of them. -/
theorem concat_result {slots : List Signal} {rest : List Slot} {signal : Signal}
    {inputs : List (Nat × Nat)} {slot width : Nat} (htyped : Typed w recs) (hvalid : w.Valid signal)
    (hc : signal.computed = true) (hslice : signal.isSlice = false)
    (hinputs : List.Forall₂ (fun part input =>
      slots[input.1]? = some part ∧ input.2 = part.width.getD 0)
        (w.compositionParts signal) inputs) :
    (Computation.concat slot inputs width).result (slots.map (w.fullSlot recs t) ++ rest) =
      (w.pendingAt recs t signal).map fun v => (slot, v) := by
  have hlt := hvalid.index_lt hc
  have hwritten : inputs.any (fun input =>
      (slotAt (slots.map (w.fullSlot recs t) ++ rest) input.1).pending.isSome) =
      w.writtenAt recs signal t := by
    rw [Waveform.writtenAt, Waveform.touched_computed hc hlt]
    refine any_forall₂ hinputs fun part hpart input hin => ?_
    rw [slotAt_map hin.1]
    exact Waveform.pendingAt_isSome htyped (hvalid.part hc hpart).1
  have hcurrent : ∀ part ∈ w.compositionParts signal, ∀ input : Nat × Nat,
      slots[input.1]? = some part ∧ input.2 = part.width.getD 0 →
      (slotAt (slots.map (w.fullSlot recs t) ++ rest) input.1).current = w.valueAt recs part t := by
    intro part hpart input hin
    rw [slotAt_map hin.1, Waveform.fullSlot_current htyped (hvalid.part hc hpart).1]
  have hobserved : inputs.any (inputObserved (slots.map (w.fullSlot recs t) ++ rest)) =
      ((w.compositionParts signal).map fun part => (part, w.valueAt recs part t)).any observed := by
    rw [List.any_map]
    refine any_forall₂ hinputs fun part hpart input hin => ?_
    rw [inputObserved, hcurrent part hpart input hin]
    rfl
  have hdigits : inputs.flatMap (inputDigits (slots.map (w.fullSlot recs t) ++ rest)) =
      ((w.compositionParts signal).map fun part => (part, w.valueAt recs part t)).flatMap
        partDigits := by
    rw [List.flatMap_map]
    refine flatMap_forall₂ hinputs fun part hpart input hin => ?_
    rw [inputDigits, hcurrent part hpart input hin, hin.2]
    rfl
  have hvalue : w.valueAt recs signal t =
      assemble ((w.compositionParts signal).map fun part => (part, w.valueAt recs part t)) :=
    Waveform.value_concat hc hslice hlt
  simp only [Computation.result, Waveform.pendingAt]
  rw [hwritten, hobserved, hdigits, hvalue, assemble]
  cases w.writtenAt recs signal t with
  | false => rfl
  | true =>
    rw [if_pos rfl, if_pos rfl]
    split <;> rfl

/-- The computations of a plan fill its slots. -/
theorem computations_fill {slots : List Signal} {computations : List Computation}
    (htyped : Typed w recs) (h : Computes w slots computations)
    (hvalid : ∀ signal ∈ slots, w.Valid signal) (rest : List Slot) (active : List Nat) :
    ∃ active', computations.foldl Computation.complete
        (slots.map (w.openSlot recs t) ++ rest, active) =
        (slots.map (w.fullSlot recs t) ++ rest, active') ∧ (∀ i ∈ active, i ∈ active') ∧
      ∀ i signal, slots[i]? = some signal → signal.computed = true →
        (w.pendingAt recs t signal).isSome = true → i ∈ active' := by
  induction h generalizing rest with
  | nil => exact ⟨active, rfl, fun i hi => hi, nofun⟩
  | @source slots computations signal _ hc ih =>
    have hsame : w.openSlot recs t signal = w.fullSlot recs t signal := by
      simp [Waveform.openSlot, Waveform.fullSlot, hc]
    obtain ⟨active', hrun, hsub, hmem⟩ :=
      ih (fun s hs => hvalid s (List.mem_append_left _ hs)) (w.fullSlot recs t signal :: rest)
    refine ⟨active', by simpa [hsame] using hrun, hsub, fun i s hs hsc hpending => ?_⟩
    rcases getElem?_concat_iff.1 hs with hs | ⟨-, rfl⟩
    · exact hmem i s hs hsc hpending
    · rw [hc] at hsc; cases hsc
  | @slice slots computations signal input _ hc hslice hinput ih =>
    obtain ⟨active', hrun, hsub, hmem⟩ :=
      ih (fun s hs => hvalid s (List.mem_append_left _ hs)) (w.openSlot recs t signal :: rest)
    obtain ⟨active'', hcomplete, hsub', hlast⟩ := complete_fills hc
      (slice_result htyped
        (hvalid signal (by simp)) hc hinput)
    refine ⟨active'', ?_, fun i hi => hsub' i (hsub i hi), fun i s hs hsc hpending => ?_⟩
    · rw [List.foldl_append, List.map_append, List.append_assoc]
      exact (congrArg (fun work => Computation.complete work _) hrun).trans hcomplete
    · rcases getElem?_concat_iff.1 hs with hs | ⟨rfl, rfl⟩
      · exact hsub' i (hmem i s hs hsc hpending)
      · exact hlast hpending
  | @concat slots computations signal inputs width _ hc hslice hinputs ih =>
    obtain ⟨active', hrun, hsub, hmem⟩ :=
      ih (fun s hs => hvalid s (List.mem_append_left _ hs)) (w.openSlot recs t signal :: rest)
    obtain ⟨active'', hcomplete, hsub', hlast⟩ := complete_fills hc
      (concat_result
        htyped (hvalid signal (by simp)) hc hslice hinputs)
    refine ⟨active'', ?_, fun i hi => hsub' i (hsub i hi), fun i s hs hsc hpending => ?_⟩
    · rw [List.foldl_append, List.map_append, List.append_assoc]
      exact (congrArg (fun work => Computation.complete work _) hrun).trans hcomplete
    · rcases getElem?_concat_iff.1 hs with hs | ⟨rfl, rfl⟩
      · exact hsub' i (hmem i s hs hsc hpending)
      · exact hlast hpending

/-! ## A tick completed -/

/-- Nothing is pending after every record of a tick is behind. -/
theorem openSlot_idle {signal : Signal} (hvalid : w.Valid signal) (h : ∀ r ∈ recs, r.time ≠ t) :
    (w.openSlot recs t signal).pending = none ∧ (w.openSlot recs t signal).events = 0 := by
  have hwritten : w.writtenAt recs signal t = false := by
    rw [← Bool.not_eq_true]
    intro htrue
    obtain ⟨r, hr, heq⟩ := List.mem_map.1 (Waveform.writtenAt_recorded hvalid htrue)
    exact h r hr heq
  constructor
  · simp [Waveform.openSlot, Waveform.pendingAt, hwritten]
  · show countAt recs signal t = 0
    unfold countAt
    split
    · rfl
    · exact eventsAt_none h

/-- The state a slot commits is the state its tick leaves. -/
theorem commit_state {signal : Signal} (hsorted : Chronological recs) (htyped : Typed w recs)
    (hvalid : w.Valid signal) :
    ((w.viewSlot recs t signal).commit t).state = stateOf (w.committedAt recs signal t) := by
  have hcommitted := Waveform.committedAt_eq (t := t) hsorted htyped hvalid
  have hentered := stateOf_entered w recs t signal
  show (match w.pendingAt recs t signal with
    | some value => if (w.viewSlot recs t signal).changed then
        some (State.mk value ((stateOf (w.enteredAt recs signal t)).map fun _ => t))
      else stateOf (w.enteredAt recs signal t)
    | none => stateOf (w.enteredAt recs signal t)) = _
  cases hpending : w.pendingAt recs t signal with
  | none =>
    rw [Waveform.pendingAt] at hpending
    rw [hpending] at hcommitted
    rw [hcommitted]
  | some v =>
    have hv := (Waveform.pendingAt_eq hpending).2
    have howned := Waveform.valueAt_owned htyped hvalid hv
    rw [Waveform.pendingAt] at hpending
    rw [hpending] at hcommitted
    rw [hcommitted]
    have hchanged : (w.viewSlot recs t signal).changed =
        !((stateOf (w.enteredAt recs signal t)).any fun state => state.value.sameValue v) := by
      simp only [Waveform.viewSlot, Slot.compare, Waveform.fullSlot, Waveform.pendingAt, hpending,
        Option.any_some]
    rw [hchanged]
    cases hstate : w.enteredAt recs signal t with
    | none => rfl
    | some entry =>
      obtain ⟨u, changed⟩ := entry
      rw [hstate] at hentered
      have hu : u.toOwned = u := Waveform.enteringAt_owned htyped hvalid hentered.symm
      simp only [stateOf, Option.map_some, Option.any_some, settle, Value.sameValue_owned hu howned]
      by_cases huv : u = v <;> simp [huv]

/-- A slot that is not busy is left alone at the end of its tick. -/
theorem Slot.commit_idle {slot : Slot} (hbusy : slot.busy = false) (hchanged : slot.changed = false)
    (time : Nat) : slot.commit time = slot := by
  obtain ⟨state, pending, changed, events⟩ := slot
  simp only [Slot.busy, Bool.or_eq_false_iff, decide_eq_false_iff_not, Nat.not_lt,
    Nat.le_zero] at hbusy
  cases pending with
  | some v => cases hbusy.1
  | none =>
    simp only [Slot.commit]
    rw [hbusy.2, show changed = false from hchanged]

/-- Completing a tick: the visitor sees the slots of the tick, and then the slots are those of the
next tick. -/
theorem completeTick_ready {σ B : Type*} {plan : Plan} {work : List Slot × List Nat}
    (hfits : plan.Fits w) (hsorted : Chronological recs) (htyped : Typed w recs)
    (hle : ∀ r ∈ recs, r.time ≤ t) (h : Ready w plan recs t work) (visitFrom : Option Nat)
    (visitor : TickVisitor σ B) (c : σ) :
    (completeTick plan.computations visitFrom visitor c t work).2 =
        shown visitFrom visitor c t (plan.retained.map (w.viewSlot recs t)) ∧
      ((completeTick plan.computations visitFrom visitor c t work).2.2 = .ok .continue →
        Ready w plan recs (t + 1)
          (completeTick plan.computations visitFrom visitor c t work).1) := by
  obtain ⟨active, hfill, hsub, hmem⟩ := computations_fill (t := t) htyped
    hfits.computes hfits.valid [] work.2
  rw [List.append_nil, List.append_nil, ← h.slots] at hfill
  -- A busy slot is on the work list.
  have hbusy : ∀ i signal, plan.retained[i]? = some signal → i ∉ active →
      (w.fullSlot recs t signal).busy = false := by
    intro i signal hi hnot
    rw [Bool.eq_false_iff]
    intro hb
    cases hc : signal.computed with
    | false =>
      have hsame : w.openSlot recs t signal = w.fullSlot recs t signal := by
        simp [Waveform.openSlot, Waveform.fullSlot, hc]
      exact hnot (hsub i (h.active i signal hi (by rw [hsame]; exact hb)))
    | true =>
      have hcount : countAt recs signal t = 0 := by simp [countAt, hc]
      have hpending : (w.pendingAt recs t signal).isSome = true := by
        simpa [Slot.busy, Waveform.fullSlot, hcount] using hb
      exact hnot (hmem i signal hi hc hpending)
  have hpendingOf : ∀ i signal, plan.retained[i]? = some signal → i ∉ active →
      w.pendingAt recs t signal = none := by
    intro i signal hi hnot
    have hidle := hbusy i signal hi hnot
    simp only [Slot.busy, Waveform.fullSlot, Bool.or_eq_false_iff] at hidle
    simpa using hidle.1
  have hviews : modifyAll Slot.compare (plan.retained.map (w.fullSlot recs t)) active =
      plan.retained.map (w.viewSlot recs t) := by
    rw [modifyAll_eq_map Slot.compare_compare, List.map_map]
    · rfl
    · intro i slot hi hnot
      rw [List.getElem?_map] at hi
      obtain ⟨signal, hs, rfl⟩ := Option.map_eq_some_iff.1 hi
      simp [Slot.compare, Waveform.fullSlot, hpendingOf i signal hs hnot]
  have hnext : modifyAll (Slot.commit t) (plan.retained.map (w.viewSlot recs t)) active =
      plan.retained.map (w.openSlot recs (t + 1)) := by
    rw [modifyAll_eq_map (Slot.commit_commit t), List.map_map]
    · refine List.map_congr_left fun signal hs => ?_
      have hvalid := hfits.valid signal hs
      have hidle := openSlot_idle (t := t + 1) hvalid fun r hr => by have := hle r hr; omega
      have hstate := commit_state (t := t) hsorted htyped hvalid
      rw [← Waveform.enteredAt_succ] at hstate
      have hopen : w.openSlot recs (t + 1) signal =
          ⟨stateOf (w.enteredAt recs signal (t + 1)), none, false, 0⟩ := by
        rw [← hidle.1, ← hidle.2]
        rfl
      rw [hopen, ← hstate]
      rfl
    · intro i slot hi hnot
      rw [List.getElem?_map] at hi
      obtain ⟨signal, hs, rfl⟩ := Option.map_eq_some_iff.1 hi
      have hidle : (w.viewSlot recs t signal).busy = false := hbusy i signal hs hnot
      refine Slot.commit_idle hidle ?_ t
      simp [Waveform.viewSlot, Slot.compare, Waveform.fullSlot, hpendingOf i signal hs hnot]
  have hready : Ready w plan recs (t + 1) (plan.retained.map (w.openSlot recs (t + 1)), []) := by
    refine ⟨rfl, fun i signal hi hb => ?_⟩
    have hidle := openSlot_idle (t := t + 1)
      (hfits.valid signal (List.mem_of_getElem? hi)) fun r hr => by have := hle r hr; omega
    rw [Slot.busy, hidle.1, hidle.2] at hb
    cases hb
  have hcomplete : completeTick plan.computations visitFrom visitor c t work =
      match shown visitFrom visitor c t (plan.retained.map (w.viewSlot recs t)) with
      | (c, .ok .continue) => ((plan.retained.map (w.openSlot recs (t + 1)), []), c, .ok .continue)
      | (c, outcome) => ((plan.retained.map (w.viewSlot recs t), active), c, outcome) := by
    unfold completeTick
    have hwork : work = (work.1, work.2) := rfl
    rw [hwork, hfill]
    dsimp only
    rw [hviews, hnext]
  rw [hcomplete]
  rcases shown visitFrom visitor c t (plan.retained.map (w.viewSlot recs t)) with ⟨c', e | _ | b⟩
  · exact ⟨rfl, nofun⟩
  · exact ⟨rfl, fun _ => hready⟩
  · exact ⟨rfl, nofun⟩

end
end Ondas.Query
